import Asteros.CoreFoundation.Element
import Asteros.CoreFoundation.PropertyListSafety
import Mathlib.Data.List.DropRight

set_option autoImplicit false

/-!
# What the property list reader accepts

`parseValue` reads exactly the images of valid elements, and what it returns is the value of the
element. Completeness reads an element off its image by induction over the element; soundness
reconstructs it from a successful run, by induction on the fuel.

## Main definitions

* `Reads` — bytes that `parseValue` reads as an object.

## Main results

* `parseValue_complete` — the image of an element is read as its value.
* `parse_sound` — what is read is the image of an element.
-/

namespace Asteros.CoreFoundation

open Asteros.Libc

variable {δ : Type}

/-! ## Tags and texts -/

/-- A run of accepted bytes followed by a refused one. -/
lemma takeWhile_run {p : UInt8 → Bool} {s : List UInt8} (hs : ∀ b ∈ s, p b = true)
    {c : List UInt8} (hc : ∀ b ∈ c.head?, p b = false) :
    (s ++ c).takeWhile p = s ∧ (s ++ c).dropWhile p = c := by
  have htake : c.takeWhile p = [] := by
    cases c with
    | nil => rfl
    | cons b c => exact List.takeWhile_cons_of_neg (by simp [hc b rfl])
  have hdrop : c.dropWhile p = c := by
    cases c with
    | nil => rfl
    | cons b c => exact List.dropWhile_cons_of_neg (by simp [hc b rfl])
  exact ⟨by rw [List.takeWhile_append_of_pos hs, htake, List.append_nil],
    by rw [List.dropWhile_append_of_pos hs, hdrop]⟩

/-- A list that does not contain a byte is a run of bytes other than it. -/
lemma run_of_notMem {s : List UInt8} {b : UInt8} (h : b ∉ s) :
    ∀ x ∈ s, (x != b) = true := fun x hx => by
  rw [bne_iff_ne]
  exact fun heq => h (heq ▸ hx)

/-- Whitespace before a byte that is not whitespace is skipped. -/
lemma dropWhile_blank {s : List UInt8} (hs : Blank s) {b : UInt8} (hb : isWs b = false)
    (c : Cursor) : (s ++ b :: c).dropWhile isWs = b :: c :=
  (takeWhile_run hs (c := b :: c) (by simpa using hb)).2

/-- What a loop over whitespace has skipped. -/
lemma exists_blank (c : Cursor) : ∃ s, Blank s ∧ c = s ++ c.dropWhile isWs :=
  ⟨c.takeWhile isWs, fun _ h => List.mem_takeWhile_imp h, List.takeWhile_append_dropWhile.symm⟩

/-- The name in a valid tag, and what follows the tag. -/
lemma OpenTag.Valid.scan {t : OpenTag} (ht : t.Valid) (c : Cursor) :
    (t.name ++ t.rest ++ byte '>' :: c).takeWhile isNameChar = t.name ∧
      afterTag (t.name ++ t.rest ++ byte '>' :: c) = c := by
  have hgt : ∀ b, isNameChar b = true → (b != byte '>') = true := by
    intro b hb
    simp only [isNameChar, Bool.and_eq_true] at hb
    exact hb.1.2
  constructor
  · rw [List.append_assoc]
    refine (takeWhile_run ht.name fun b hb => ?_).1
    cases hr : t.rest with
    | nil =>
      rw [hr] at hb
      cases hb
      decide
    | cons b' r =>
      rw [hr] at hb
      exact ht.delimited b (by rw [hr]; exact hb)
  · have hrun : ∀ b ∈ t.name ++ t.rest, (b != byte '>') = true := by
      intro b hb
      rcases List.mem_append.mp hb with hb | hb
      · exact hgt b (ht.name b hb)
      · exact run_of_notMem ht.rest b hb
    rw [afterTag, (takeWhile_run (p := (· != byte '>')) hrun
      (c := byte '>' :: c) (by simp)).2, List.tail_cons]

/-- A tag that ends is a valid tag. -/
lemma exists_openTag {c : Cursor} (h : byte '>' ∈ c) : ∃ t : OpenTag, t.Valid ∧
    t.name = c.takeWhile isNameChar ∧ c = t.name ++ t.rest ++ byte '>' :: afterTag c := by
  refine ⟨⟨c.takeWhile isNameChar, (c.dropWhile isNameChar).takeWhile (· != byte '>')⟩,
    ⟨fun b hb => List.mem_takeWhile_imp hb, ?_, ?_⟩, rfl, ?_⟩
  · intro hmem
    simpa using List.mem_takeWhile_imp hmem
  · intro b hb
    cases hd : c.dropWhile isNameChar with
    | nil => simp [hd] at hb
    | cons b' d =>
      have hnot : isNameChar b' = false := by
        have := List.head?_dropWhile_not isNameChar c
        rw [hd] at this
        simpa using this
      simp only [hd] at hb
      by_cases hgt : b' != byte '>'
      · rw [List.takeWhile_cons_of_pos (p := (· != byte '>')) hgt] at hb
        cases hb
        exact hnot
      · rw [List.takeWhile_cons_of_neg (p := (· != byte '>')) hgt] at hb
        cases hb
  · have hsplit := List.takeWhile_append_dropWhile (p := isNameChar) (l := c)
    have hsplit' := List.takeWhile_append_dropWhile (p := (· != byte '>'))
      (l := c.dropWhile isNameChar)
    have hend : c.dropWhile (· != byte '>') = byte '>' :: afterTag c := by
      unfold afterTag
      cases hd : c.dropWhile (· != byte '>') with
      | nil => exact absurd (List.dropWhile_eq_nil_iff.mp hd _ h) (by simp)
      | cons b d =>
        have := List.head?_dropWhile_not (· != byte '>') c
        rw [hd] at this
        have hb : b = byte '>' := by simpa using this
        rw [hb, List.tail_cons]
    rw [dropWhile_isNameChar, hend] at hsplit'
    rw [List.append_assoc, hsplit', hsplit]

/-- Nothing follows a tag that does not end. -/
lemma afterTag_eq_nil {c : Cursor} (h : byte '>' ∉ c) : afterTag c = [] := by
  have hnil : c.dropWhile (· != byte '>') = [] :=
    List.dropWhile_eq_nil_iff.mpr (run_of_notMem h)
  rw [afterTag, hnil, List.tail_nil]

/-- **`expectCloseTag` succeeds exactly on a close tag.** -/
lemma expectCloseTag_eq_true_iff {c c' : Cursor} {name : List UInt8} :
    expectCloseTag c name = .ok (true, c') ↔
      ∃ t : CloseTag, t.Valid ∧ c = t.bytes name ++ c' := by
  simp only [expectCloseTag, skipWs_eq, ok_bind, atByte_eq, startsWith_eq]
  constructor
  · intro h
    obtain ⟨lead, hlead, hc⟩ := exists_blank c
    cases hd : c.dropWhile isWs with
    | nil => simp [hd] at h
    | cons b₁ c₁ =>
      by_cases hb₁ : b₁ = byte '<'
      · cases c₁ with
        | nil => simp [hd, hb₁] at h
        | cons b₂ c₂ =>
          by_cases hb₂ : b₂ = byte '/'
          · cases hp : name.isPrefixOf c₂ with
            | false => simp [hd, hb₁, hb₂, hp] at h
            | true =>
              obtain ⟨c₃, rfl⟩ := List.isPrefixOf_iff_prefix.mp hp
              obtain ⟨trail, htrail, hc₃⟩ := exists_blank c₃
              cases hd₃ : c₃.dropWhile isWs with
              | nil => simp [hd, hb₁, hb₂, hp, hd₃] at h
              | cons b₄ c₄ =>
                by_cases hb₄ : b₄ = byte '>'
                · simp only [hd, hb₁, hb₂, hp, hd₃, hb₄, List.head?_cons, BEq.rfl, Bool.not_true,
                    Bool.false_eq_true, if_false, advance_cons_one, ok_bind,
                    advance_append] at h
                  cases h
                  refine ⟨⟨lead, trail⟩, ⟨hlead, htrail⟩, ?_⟩
                  rw [hd, hb₁, hb₂, hc₃, hd₃, hb₄] at hc
                  rw [hc, CloseTag.bytes]
                  simp [ascii, byte]
                · simp [hd, hb₁, hb₂, hp, hd₃, hb₄] at h
          · simp [hd, hb₁, hb₂] at h
      · simp [hd, hb₁] at h
  · rintro ⟨t, ht, rfl⟩
    have hlead : (t.bytes name ++ c').dropWhile isWs =
        byte '<' :: byte '/' :: (name ++ (t.trail ++ byte '>' :: c')) := by
      have hcat : t.bytes name ++ c' =
          t.lead ++ byte '<' :: (byte '/' :: (name ++ (t.trail ++ byte '>' :: c'))) := by
        simp [CloseTag.bytes, ascii, byte]
      rw [hcat]
      exact dropWhile_blank ht.lead (by decide) _
    have htrail : (t.trail ++ byte '>' :: c').dropWhile isWs = byte '>' :: c' :=
      dropWhile_blank ht.trail (by decide) _
    have hp : name.isPrefixOf (name ++ (t.trail ++ byte '>' :: c')) = true :=
      List.isPrefixOf_iff_prefix.mpr (List.prefix_append _ _)
    simp only [hlead, hp, htrail, List.head?_cons, BEq.rfl, Bool.not_true, Bool.false_eq_true,
      if_false, advance_cons_one, ok_bind, advance_append]

/-- A close tag starts with whitespace and `<`. -/
lemma head_closeTag {t : CloseTag} (ht : t.Valid) (name : List UInt8) (c : Cursor) :
    ∃ s d, Blank s ∧ t.bytes name ++ c = s ++ ascii "</" ++ d :=
  ⟨t.lead, name ++ t.trail ++ [byte '>'] ++ c, ht.lead, by
    simp [CloseTag.bytes, List.append_assoc]⟩

/-! ## Completeness -/

variable (strtod : CString → δ) (mutability : MutabilityOptions)

/-- With enough fuel, `parseValue` reads `s` as `v`, wherever `s` stands. -/
def Reads (s : List UInt8) (v : CFObject δ) : Prop := ∃ n, ∀ fuel, n ≤ fuel → ∀ c errors,
  parseValue strtod mutability fuel ⟨s ++ c, errors⟩ = .ok (some v, ⟨c, errors⟩)

/-- `parseValue` at an open tag, up to the name of the tag. -/
lemma scan_openTag {lead : List UInt8} (hlead : Blank lead) {t : OpenTag} (ht : t.Valid)
    (c : Cursor) : ∃ d slash, (lead ++ t.bytes ++ c).dropWhile isWs = byte '<' :: d ∧
      readTagName d = .ok (CString.ofBytes t.name, slash, c) := by
  obtain ⟨slash, htag⟩ := readTagName_eq (t.name ++ t.rest ++ byte '>' :: c)
  obtain ⟨hname, hafter⟩ := ht.scan c
  have hcat : lead ++ t.bytes ++ c =
      lead ++ byte '<' :: (t.name ++ t.rest ++ byte '>' :: c) := by
    simp [OpenTag.bytes]
  rw [hname, hafter] at htag
  exact ⟨_, slash, by rw [hcat]; exact dropWhile_blank hlead (by decide) _, htag⟩

section OpenTags

variable {lead : List UInt8} {t : OpenTag} (fuel : ℕ) (c : Cursor) (errors : List ReadError)

/-- `parseValue` at `<dict>`. -/
lemma parseValue_dict (hlead : Blank lead) (ht : t.Valid) (hn : t.Named (ascii "dict")) :
    parseValue strtod mutability (fuel + 1) ⟨lead ++ t.bytes ++ c, errors⟩ =
      parseDict strtod mutability fuel [] ⟨c, errors⟩ := by
  obtain ⟨d, slash, hws, htag⟩ := scan_openTag hlead ht c
  rw [parseValue]
  simp only [skipWs_eq, hws, ok_bind, atByte_eq, List.head?_cons, BEq.rfl, Bool.not_true,
    Bool.false_eq_true, if_false, advance_cons_one, htag, show _ = ascii "dict" from hn, if_true]

/-- `parseValue` at `<array>`. -/
lemma parseValue_array (hlead : Blank lead) (ht : t.Valid) (hn : t.Named (ascii "array")) :
    parseValue strtod mutability (fuel + 1) ⟨lead ++ t.bytes ++ c, errors⟩ =
      parseArray strtod mutability fuel [] ⟨c, errors⟩ := by
  obtain ⟨d, slash, hws, htag⟩ := scan_openTag hlead ht c
  rw [parseValue]
  simp only [skipWs_eq, hws, ok_bind, atByte_eq, List.head?_cons, BEq.rfl, Bool.not_true,
    Bool.false_eq_true, if_false, advance_cons_one, htag, show _ = ascii "array" from hn,
    if_true]
  rw [if_neg (by decide)]

/-- `parseValue` at `<true/>` or `<false/>`. -/
lemma parseValue_boolean (hlead : Blank lead) (ht : t.Valid) {b : Bool}
    (hn : t.Named (if b then ascii "true" else ascii "false")) :
    parseValue strtod mutability (fuel + 1) ⟨lead ++ t.bytes ++ c, errors⟩ =
      .ok (some (.boolean b), ⟨c, errors⟩) := by
  obtain ⟨d, slash, hws, htag⟩ := scan_openTag hlead ht c
  rw [parseValue]
  simp only [skipWs_eq, hws, ok_bind, atByte_eq, List.head?_cons, BEq.rfl, Bool.not_true,
    Bool.false_eq_true, if_false, advance_cons_one, htag,
    show _ = (if b then ascii "true" else ascii "false") from hn]
  cases b with
  | true => rw [if_neg (by decide), if_neg (by decide), if_pos (by decide)]
  | false =>
    rw [if_neg (by decide), if_neg (by decide), if_neg (by decide), if_pos (by decide)]

/-- The message of an unterminated text element. -/
def TextKind.error : TextKind → ReadError
  | .string => .unterminatedString
  | .integer => .unterminatedInteger
  | .real => .unterminatedReal
  | .data => .unterminatedData

/-- `parseValue` at the tag of a text element. -/
lemma parseValue_text (hlead : Blank lead) (ht : t.Valid) {kind : TextKind}
    (hn : t.Named kind.name) :
    parseValue strtod mutability (fuel + 1) ⟨lead ++ t.bytes ++ c, errors⟩ =
      textElement kind.name kind.error (kind.value strtod) ⟨c, errors⟩ := by
  obtain ⟨d, slash, hws, htag⟩ := scan_openTag hlead ht c
  rw [parseValue]
  simp only [skipWs_eq, hws, ok_bind, atByte_eq, List.head?_cons, BEq.rfl, Bool.not_true,
    Bool.false_eq_true, if_false, advance_cons_one, htag, show _ = kind.name from hn]
  cases kind with
  | string =>
    rw [if_neg (by decide), if_neg (by decide), if_neg (by decide), if_neg (by decide),
      if_pos (by decide)]
    rfl
  | integer =>
    rw [if_neg (by decide), if_neg (by decide), if_neg (by decide), if_neg (by decide),
      if_neg (by decide), if_pos (by decide)]
    rfl
  | real =>
    rw [if_neg (by decide), if_neg (by decide), if_neg (by decide), if_neg (by decide),
      if_neg (by decide), if_neg (by decide), if_pos (by decide)]
    rfl
  | data =>
    rw [if_neg (by decide), if_neg (by decide), if_neg (by decide), if_neg (by decide),
      if_neg (by decide), if_neg (by decide), if_neg (by decide), if_pos (by decide)]
    rfl

end OpenTags

/-- The text in front of a close tag. -/
lemma readText_closeTag {raw : List UInt8} (hraw : byte '<' ∉ raw) (trail name : List UInt8)
    (c : Cursor) : readText (raw ++ (CloseTag.ofText trail).bytes name ++ c) =
      .ok (unescape raw, (CloseTag.ofText trail).bytes name ++ c) := by
  have hrun := takeWhile_run (p := (· != byte '<')) (run_of_notMem hraw)
    (c := (CloseTag.ofText trail).bytes name ++ c)
    (by simp [CloseTag.ofText, CloseTag.bytes, ascii, byte])
  rw [readText_eq, List.append_assoc, hrun.1, hrun.2]

/-- A text element up to its close tag. -/
lemma textElement_closeTag {raw trail : List UInt8} (hraw : byte '<' ∉ raw)
    (htrail : Blank trail) (name : List UInt8) (msg : ReadError)
    (make : List UInt8 → CFObject δ) (c : Cursor) (errors : List ReadError) :
    textElement name msg make ⟨raw ++ (CloseTag.ofText trail).bytes name ++ c, errors⟩ =
      .ok (some (make (unescape raw)), ⟨c, errors⟩) := by
  have hclose : expectCloseTag ((CloseTag.ofText trail).bytes name ++ c) name = .ok (true, c) :=
    expectCloseTag_eq_true_iff.mpr ⟨_, CloseTag.valid_ofText htrail, rfl⟩
  simp only [textElement, readText_closeTag hraw, ok_bind, hclose, if_true]

/-- The close tag that ends a loop. -/
lemma closeTagAhead_closeTag {t : CloseTag} (ht : t.Valid) (name : List UInt8) (c : Cursor) :
    (ascii "</").isPrefixOf ((t.bytes name ++ c).dropWhile isWs) = true ∧
      expectCloseTag ((t.bytes name ++ c).dropWhile isWs) name = .ok (true, c) := by
  have hclose : expectCloseTag (t.bytes name ++ c) name = .ok (true, c) :=
    expectCloseTag_eq_true_iff.mpr ⟨t, ht, rfl⟩
  obtain ⟨s, d, hs, heq⟩ := head_closeTag ht name c
  constructor
  · have hcat : s ++ ascii "</" ++ d = s ++ byte '<' :: (byte '/' :: d) := by
      simp [ascii, byte]
    rw [heq, hcat, dropWhile_blank hs (by decide)]
    simp [ascii, byte, List.isPrefixOf]
  · rw [expectCloseTag, skipWs_eq, List.dropWhile_idempotent, ← skipWs_eq]
    exact hclose

/-- What starts with a named open tag does not start with a close tag. -/
lemma not_closeTagAhead {lead : List UInt8} (hlead : Blank lead) {t : OpenTag} (ht : t.Valid)
    (hne : t.name ≠ []) (c : Cursor) :
    (ascii "</").isPrefixOf ((lead ++ t.bytes ++ c).dropWhile isWs) = false := by
  obtain ⟨b, name, hname⟩ := List.exists_cons_of_ne_nil hne
  have hb : b ≠ byte '/' := by
    have h := ht.name b (by rw [hname]; exact List.mem_cons_self)
    rintro rfl
    exact absurd h (by decide)
  have hcat : lead ++ t.bytes ++ c =
      lead ++ byte '<' :: (b :: (name ++ t.rest ++ byte '>' :: c)) := by
    simp [OpenTag.bytes, hname]
  rw [hcat, dropWhile_blank hlead (by decide), show ascii "</" = [byte '<', byte '/'] from rfl]
  simp [List.isPrefixOf, Ne.symm hb]

/-- A named tag has a name. -/
lemma OpenTag.Named.name_ne_nil {t : OpenTag} {name : List UInt8} (h : t.Named name)
    (hname : name ≠ []) : t.name ≠ [] := fun hnil => hname (by
  rw [← h, hnil]
  rfl)

/-- A valid element starts with a named open tag. -/
lemma Element.exists_openTag_bytes {e : Element} (he : e.Valid) : ∃ (lead : List UInt8)
    (t : OpenTag) (rest : List UInt8), Blank lead ∧ t.Valid ∧ t.name ≠ [] ∧
      e.bytes = lead ++ t.bytes ++ rest := by
  cases e with
  | boolean lead tag b =>
    obtain ⟨hlead, ht, hn⟩ := he
    exact ⟨lead, tag, [], hlead, ht, hn.name_ne_nil (by cases b <;> decide),
      (List.append_nil _).symm⟩
  | text kind lead tag raw trail =>
    obtain ⟨hlead, ht, hn, -⟩ := he
    exact ⟨lead, tag, _, hlead, ht, hn.name_ne_nil (by cases kind <;> decide), rfl⟩
  | array lead tag items close =>
    obtain ⟨hlead, ht, hn, -⟩ := he
    exact ⟨lead, tag, _, hlead, ht, hn.name_ne_nil (by decide), rfl⟩
  | dict lead tag entries close =>
    obtain ⟨hlead, ht, hn, -⟩ := he
    exact ⟨lead, tag, _, hlead, ht, hn.name_ne_nil (by decide), rfl⟩

/-- Whitespace that was skipped before does not matter to `parseValue`. -/
lemma parseValue_dropWhile (fuel : ℕ) (c : Cursor) (errors : List ReadError) :
    parseValue strtod mutability fuel ⟨c.dropWhile isWs, errors⟩ =
      parseValue strtod mutability fuel ⟨c, errors⟩ := by
  cases fuel with
  | zero => rfl
  | succ fuel => simp only [parseValue, skipWs_eq, List.dropWhile_idempotent]

/-- The values of an array, up to its close tag. -/
private lemma items_complete {items : List Element}
    (hread : ∀ e ∈ items, Reads strtod mutability e.bytes (e.value strtod))
    (hvalid : Element.ValidItems items) {close : CloseTag} (hclose : close.Valid) :
    ∃ n, ∀ fuel, n ≤ fuel → ∀ a c errors,
      parseArray strtod mutability fuel a
        ⟨Element.bytesItems items ++ close.bytes (ascii "array") ++ c, errors⟩ =
          .ok (some (.array (a ++ Element.valueItems strtod items)), ⟨c, errors⟩) := by
  induction items with
  | nil =>
    refine ⟨1, fun fuel hfuel a c errors => ?_⟩
    obtain ⟨fuel, rfl⟩ : ∃ k, fuel = k + 1 := ⟨fuel - 1, by omega⟩
    obtain ⟨hahead, hexpect⟩ := closeTagAhead_closeTag hclose (ascii "array") c
    simp only [parseArray, Element.bytesItems, Element.valueItems, List.nil_append, skipWs_eq,
      ok_bind, closeTagAhead_eq, hahead, hexpect, if_true, Bool.not_true, Bool.false_eq_true,
      if_false, List.append_nil]
  | cons e items ih =>
    obtain ⟨hv, hvs⟩ := hvalid
    obtain ⟨n₁, h₁⟩ := hread e List.mem_cons_self
    obtain ⟨n₂, h₂⟩ := ih (fun e' he' => hread e' (List.mem_cons_of_mem _ he')) hvs
    refine ⟨max n₁ n₂ + 1, fun fuel hfuel a c errors => ?_⟩
    obtain ⟨fuel, rfl⟩ : ∃ k, fuel = k + 1 := ⟨fuel - 1, by omega⟩
    obtain ⟨lead, t, rest, hlead, ht, hne, hbytes⟩ := Element.exists_openTag_bytes hv
    have hcat : Element.bytesItems (e :: items) ++ close.bytes (ascii "array") ++ c =
        e.bytes ++ (Element.bytesItems items ++ close.bytes (ascii "array") ++ c) := by
      simp [Element.bytesItems]
    have hahead : (ascii "</").isPrefixOf ((e.bytes ++ (Element.bytesItems items ++
        close.bytes (ascii "array") ++ c)).dropWhile isWs) = false := by
      rw [hbytes, List.append_assoc _ rest]
      exact not_closeTagAhead hlead ht hne _
    rw [hcat, parseArray]
    simp only [skipWs_eq, ok_bind, closeTagAhead_eq, hahead, Bool.false_eq_true, if_false,
      parseValue_dropWhile, h₁ fuel (by omega), h₂ fuel (by omega), Element.valueItems]
    rw [List.append_assoc, List.singleton_append]

/-- The keys and values of a dictionary, up to its close tag. -/
private lemma entries_complete {entries : List (KeyElement × Element)}
    (hread : ∀ e ∈ entries, Reads strtod mutability e.2.bytes (e.2.value strtod))
    (hvalid : Element.ValidEntries entries) {close : CloseTag} (hclose : close.Valid) :
    ∃ n, ∀ fuel, n ≤ fuel → ∀ d c errors,
      parseDict strtod mutability fuel d
        ⟨Element.bytesEntries entries ++ close.bytes (ascii "dict") ++ c, errors⟩ =
          .ok (some (.dictionary ((Element.valueEntries strtod entries).foldl
            (fun d e => cfDictionarySetValue d e.1 e.2) d)), ⟨c, errors⟩) := by
  induction entries with
  | nil =>
    refine ⟨1, fun fuel hfuel d c errors => ?_⟩
    obtain ⟨fuel, rfl⟩ : ∃ k, fuel = k + 1 := ⟨fuel - 1, by omega⟩
    obtain ⟨hahead, hexpect⟩ := closeTagAhead_closeTag hclose (ascii "dict") c
    simp only [parseDict, Element.bytesEntries, Element.valueEntries, List.nil_append, skipWs_eq,
      ok_bind, closeTagAhead_eq, hahead, hexpect, if_true, Bool.not_true, Bool.false_eq_true,
      if_false, List.foldl_nil, cfDictionaryCreateCopy, ite_self]
  | cons e entries ih =>
    obtain ⟨k, e⟩ := e
    obtain ⟨hk, hv, hvs⟩ := hvalid
    obtain ⟨n₁, h₁⟩ := hread (k, e) List.mem_cons_self
    obtain ⟨n₂, h₂⟩ := ih (fun e' he' => hread e' (List.mem_cons_of_mem _ he')) hvs
    refine ⟨max n₁ n₂ + 1, fun fuel hfuel d c errors => ?_⟩
    obtain ⟨fuel, rfl⟩ : ∃ k, fuel = k + 1 := ⟨fuel - 1, by omega⟩
    have hcat : Element.bytesEntries ((k, e) :: entries) ++ close.bytes (ascii "dict") ++ c =
        k.lead ++ k.tag.bytes ++ (k.raw ++ (CloseTag.ofText k.trail).bytes (ascii "key") ++
          (e.bytes ++ (Element.bytesEntries entries ++ close.bytes (ascii "dict") ++ c))) := by
      simp [Element.bytesEntries, KeyElement.bytes]
    have hahead := not_closeTagAhead hk.lead hk.tag (hk.named.name_ne_nil (by decide))
      (k.raw ++ (CloseTag.ofText k.trail).bytes (ascii "key") ++
        (e.bytes ++ (Element.bytesEntries entries ++ close.bytes (ascii "dict") ++ c)))
    obtain ⟨c', slash, hws, htag⟩ := scan_openTag hk.lead hk.tag
      (k.raw ++ (CloseTag.ofText k.trail).bytes (ascii "key") ++
        (e.bytes ++ (Element.bytesEntries entries ++ close.bytes (ascii "dict") ++ c)))
    have hexpect : expectCloseTag ((CloseTag.ofText k.trail).bytes (ascii "key") ++
        (e.bytes ++ (Element.bytesEntries entries ++ close.bytes (ascii "dict") ++ c)))
        (ascii "key") = .ok (true,
          e.bytes ++ (Element.bytesEntries entries ++ close.bytes (ascii "dict") ++ c)) :=
      expectCloseTag_eq_true_iff.mpr ⟨_, CloseTag.valid_ofText hk.trail, rfl⟩
    have hnamed : (CString.ofBytes k.tag.name).bytes = ascii "key" := hk.named
    rw [hws] at hahead
    rw [hcat, parseDict]
    simp only [skipWs_eq, ok_bind, closeTagAhead_eq, hahead, Bool.false_eq_true, if_false, hws,
      atByte_eq, List.head?_cons, BEq.rfl, Bool.not_true, advance_cons_one, htag, hnamed, ne_eq,
      not_true_eq_false, readText_closeTag hk.raw, hexpect, h₁ fuel (by omega),
      h₂ fuel (by omega), Element.valueEntries, List.foldl_cons]

/-- **The image of a valid element is read as its value**, wherever it stands.

**Proof sketch.** Induction over the element. The tag selects the branch; a text ends at its
close tag because it contains no `<`, and the loops end at theirs because every element starts
with an open tag. -/
theorem parseValue_complete {e : Element} (he : e.Valid) :
    Reads strtod mutability e.bytes (e.value strtod) := by
  induction e using Element.induct with
  | boolean lead tag b =>
    obtain ⟨hlead, ht, hn⟩ := he
    refine ⟨1, fun fuel hfuel c errors => ?_⟩
    obtain ⟨fuel, rfl⟩ : ∃ k, fuel = k + 1 := ⟨fuel - 1, by omega⟩
    exact parseValue_boolean strtod mutability fuel c errors hlead ht hn
  | text kind lead tag raw trail =>
    obtain ⟨hlead, ht, hn, hraw, htrail⟩ := he
    refine ⟨1, fun fuel hfuel c errors => ?_⟩
    obtain ⟨fuel, rfl⟩ : ∃ k, fuel = k + 1 := ⟨fuel - 1, by omega⟩
    rw [Element.bytes, List.append_assoc _ (raw ++ _),
      parseValue_text strtod mutability fuel _ errors hlead ht hn,
      textElement_closeTag hraw htrail]
    rfl
  | array lead tag items close ih =>
    obtain ⟨hlead, ht, hn, hitems, hclose⟩ := he
    obtain ⟨n, hn'⟩ := items_complete strtod mutability
      (fun e hmem => ih e hmem ((Element.validItems_iff items).mp hitems e hmem)) hitems hclose
    refine ⟨n + 1, fun fuel hfuel c errors => ?_⟩
    obtain ⟨fuel, rfl⟩ : ∃ k, fuel = k + 1 := ⟨fuel - 1, by omega⟩
    rw [Element.bytes, List.append_assoc _ (Element.bytesItems items ++ _),
      parseValue_array strtod mutability fuel _ errors hlead ht hn, hn' fuel (by omega)]
    rfl
  | dict lead tag entries close ih =>
    obtain ⟨hlead, ht, hn, hentries, hclose⟩ := he
    obtain ⟨n, hn'⟩ := entries_complete strtod mutability
      (fun e hmem => ih e hmem ((Element.validEntries_iff entries).mp hentries e hmem).2)
      hentries hclose
    refine ⟨n + 1, fun fuel hfuel c errors => ?_⟩
    obtain ⟨fuel, rfl⟩ : ∃ k, fuel = k + 1 := ⟨fuel - 1, by omega⟩
    rw [Element.bytes, List.append_assoc _ (Element.bytesEntries entries ++ _),
      parseValue_dict strtod mutability fuel _ errors hlead ht hn, hn' fuel (by omega)]
    rfl

/-! ## Soundness -/

/-- A close tag at a cursor from which whitespace was skipped is one at the cursor. -/
private lemma exists_closeTag {c c' : Cursor} {name : List UInt8}
    (h : expectCloseTag (c.dropWhile isWs) name = .ok (true, c')) :
    ∃ t : CloseTag, t.Valid ∧ c = t.bytes name ++ c' := by
  rw [expectCloseTag, skipWs_eq, List.dropWhile_idempotent, ← skipWs_eq] at h
  exact expectCloseTag_eq_true_iff.mp h

/-- A tag after which something is left, as an open tag. -/
lemma exists_openTag_of_dropWhile {c d : Cursor} (hc : c.dropWhile isWs = byte '<' :: d)
    (hleft : afterTag d ≠ []) : ∃ (lead : List UInt8) (t : OpenTag), Blank lead ∧ t.Valid ∧
      t.name = d.takeWhile isNameChar ∧ c = lead ++ t.bytes ++ afterTag d := by
  obtain ⟨lead, hlead, hcat⟩ := exists_blank c
  have hgt : byte '>' ∈ d := by
    by_contra hnot
    exact hleft (afterTag_eq_nil hnot)
  obtain ⟨t, ht, hname, hd⟩ := exists_openTag hgt
  refine ⟨lead, t, hlead, ht, hname, ?_⟩
  rw [hcat, hc]
  conv_lhs => rw [hd]
  simp [OpenTag.bytes]

/-- The text that was read in front of a close tag. -/
private lemma exists_text {c c' : Cursor} {name : List UInt8}
    (h : expectCloseTag (c.dropWhile (· != byte '<')) name = .ok (true, c')) :
    ∃ raw trail, byte '<' ∉ raw ∧ Blank trail ∧ raw = c.takeWhile (· != byte '<') ∧
      c = raw ++ (CloseTag.ofText trail).bytes name ++ c' := by
  obtain ⟨t, ht, hcat⟩ := expectCloseTag_eq_true_iff.mp h
  have hraw : byte '<' ∉ c.takeWhile (· != byte '<') := fun hmem => by
    simpa using List.mem_takeWhile_imp hmem
  have hlead : t.lead = [] := by
    cases hl : t.lead with
    | nil => rfl
    | cons b l =>
      have hhead := List.head?_dropWhile_not (· != byte '<') c
      rw [hcat, CloseTag.bytes, hl] at hhead
      have hb : b = byte '<' := by simpa using hhead
      have hws := ht.lead b (by rw [hl]; exact List.mem_cons_self)
      rw [hb] at hws
      exact absurd hws (by decide)
  refine ⟨_, t.trail, hraw, ht.trail, rfl, ?_⟩
  have hsplit : c.takeWhile (· != byte '<') ++ c.dropWhile (· != byte '<') = c :=
    List.takeWhile_append_dropWhile
  conv_lhs => rw [← hsplit, hcat]
  rw [CloseTag.bytes, CloseTag.bytes, hlead, List.append_assoc (c.takeWhile _)]
  rfl

/-- What a value read by `parseValue` says about the bytes it was read from. The name of a
Boolean element may be cut off by the end of the buffer; then nothing is left. -/
def ValueSound (fuel : ℕ) : Prop := ∀ (st st' : ReadState) (v : CFObject δ),
  parseValue strtod mutability fuel st = .ok (some v, st') → st'.cursor ≠ [] →
    ∃ e : Element, e.Valid ∧ st.cursor = e.bytes ++ st'.cursor ∧ e.value strtod = v

/-- What an array read by `parseArray` says about the bytes it was read from. -/
def ArraySound (fuel : ℕ) : Prop := ∀ (a : List (CFObject δ)) (st st' : ReadState)
  (v : CFObject δ), parseArray strtod mutability fuel a st = .ok (some v, st') →
    ∃ items close, Element.ValidItems items ∧ CloseTag.Valid close ∧
      st.cursor = Element.bytesItems items ++ close.bytes (ascii "array") ++ st'.cursor ∧
      v = .array (a ++ Element.valueItems strtod items)

/-- What a dictionary read by `parseDict` says about the bytes it was read from. -/
def DictSound (fuel : ℕ) : Prop := ∀ (d : Entries δ) (st st' : ReadState) (v : CFObject δ),
  parseDict strtod mutability fuel d st = .ok (some v, st') →
    ∃ entries close, Element.ValidEntries entries ∧ CloseTag.Valid close ∧
      st.cursor = Element.bytesEntries entries ++ close.bytes (ascii "dict") ++ st'.cursor ∧
      v = .dictionary ((Element.valueEntries strtod entries).foldl
        (fun d e => cfDictionarySetValue d e.1 e.2) d)

variable {strtod mutability}

/-- The step of soundness for `parseArray`. -/
private lemma array_sound {fuel : ℕ} (hvalue : ValueSound strtod mutability fuel)
    (harray : ArraySound strtod mutability fuel) : ArraySound strtod mutability (fuel + 1) := by
  intro a st st' v h
  rw [parseArray] at h
  simp only [skipWs_eq, ok_bind, closeTagAhead_eq, parseValue_dropWhile] at h
  cases hahead : (ascii "</").isPrefixOf (st.cursor.dropWhile isWs) with
  | true =>
    obtain ⟨closed, c, hclose, -⟩ :=
      exists_expectCloseTag (st.cursor.dropWhile isWs) (ascii "array")
    simp only [hahead, if_true, hclose, ok_bind] at h
    cases closed with
    | false => cases h
    | true =>
      cases h
      obtain ⟨t, ht, hcat⟩ := exists_closeTag hclose
      exact ⟨[], t, trivial, ht, hcat, by rw [Element.valueItems, List.append_nil]⟩
  | false =>
    simp only [hahead, Bool.false_eq_true, if_false] at h
    cases hv : parseValue strtod mutability fuel st with
    | error e => simp only [hv] at h; cases h
    | ok r =>
      obtain ⟨val, st₁⟩ := r
      simp only [hv, ok_bind] at h
      cases val with
      | none => cases h
      | some val =>
        obtain ⟨items, close, hitems, hclose, hcat, rfl⟩ := harray _ _ _ _ h
        have hleft : st₁.cursor ≠ [] := by
          rw [hcat]
          simp [CloseTag.bytes]
        obtain ⟨e, he, hcat', rfl⟩ := hvalue _ _ _ hv hleft
        refine ⟨e :: items, close, ⟨he, hitems⟩, hclose, ?_, ?_⟩
        · rw [hcat', hcat, Element.bytesItems]
          simp only [List.append_assoc]
        · rw [Element.valueItems, List.append_assoc, List.singleton_append]

/-- The step of soundness for `parseDict`. -/
private lemma dict_sound {fuel : ℕ} (hvalue : ValueSound strtod mutability fuel)
    (hdict : DictSound strtod mutability fuel) : DictSound strtod mutability (fuel + 1) := by
  intro d st st' v h
  rw [parseDict] at h
  simp only [skipWs_eq, ok_bind, closeTagAhead_eq, atByte_eq, cfDictionaryCreateCopy,
    ite_self] at h
  cases hahead : (ascii "</").isPrefixOf (st.cursor.dropWhile isWs) with
  | true =>
    obtain ⟨closed, c, hclose, -⟩ :=
      exists_expectCloseTag (st.cursor.dropWhile isWs) (ascii "dict")
    simp only [hahead, if_true, hclose, ok_bind] at h
    cases closed with
    | false => cases h
    | true =>
      cases h
      obtain ⟨t, ht, hcat⟩ := exists_closeTag hclose
      exact ⟨[], t, trivial, ht, hcat, rfl⟩
  | false =>
    simp only [hahead, Bool.false_eq_true, if_false] at h
    cases hc : st.cursor.dropWhile isWs with
    | nil => rw [hc] at h; cases h
    | cons b c =>
      rw [hc] at h
      by_cases hb : b = byte '<'
      · obtain ⟨slash, htag⟩ := readTagName_eq c
        obtain ⟨closed, c', hclose, -⟩ :=
          exists_expectCloseTag ((afterTag c).dropWhile (· != byte '<')) (ascii "key")
        simp only [hb, List.head?_cons, BEq.rfl, Bool.not_true, Bool.false_eq_true, if_false,
          advance_cons_one, ok_bind, htag, readText_eq, hclose] at h
        by_cases hkey : (CString.ofBytes (c.takeWhile isNameChar)).bytes ≠ ascii "key"
        · rw [if_pos hkey] at h
          cases h
        · rw [if_neg hkey] at h
          cases closed with
          | false => cases h
          | true =>
            simp only [Bool.not_true, Bool.false_eq_true, if_false] at h
            cases hv : parseValue strtod mutability fuel ⟨c', st.errors⟩ with
            | error e => simp only [hv] at h; cases h
            | ok r =>
              obtain ⟨val, st₁⟩ := r
              simp only [hv, ok_bind] at h
              cases val with
              | none => cases h
              | some val =>
                obtain ⟨entries, close, hentries, hcl, hcat, rfl⟩ := hdict _ _ _ _ h
                have hleft : st₁.cursor ≠ [] := by
                  rw [hcat]
                  simp [CloseTag.bytes]
                obtain ⟨e, he, hcat', rfl⟩ := hvalue _ _ _ hv hleft
                obtain ⟨raw, trail, hraw, htrail, hraweq, htext⟩ := exists_text hclose
                have hafter : afterTag c ≠ [] := by
                  rw [htext]
                  simp [CloseTag.bytes]
                subst hb
                obtain ⟨lead, t, hlead, ht, hname, hst⟩ :=
                  exists_openTag_of_dropWhile hc hafter
                refine ⟨(⟨lead, t, raw, trail⟩, e) :: entries, close,
                  ⟨⟨hlead, ht, ?_, hraw, htrail⟩, he, hentries⟩, hcl, ?_, ?_⟩
                · rw [OpenTag.Named, hname]
                  exact not_not.mp hkey
                · have hc' : c' = e.bytes ++ st₁.cursor := hcat'
                  rw [hst, htext, hc', hcat, Element.bytesEntries, KeyElement.bytes]
                  simp only [List.append_assoc]
                · rw [Element.valueEntries, List.foldl_cons, ← hraweq]
      · have hne : (some b == some (byte '<')) = false := by simpa using hb
        simp only [List.head?_cons, hne, Bool.not_false, if_true] at h
        cases h

/-- A text element that was read, with the tag in front of it. -/
private lemma exists_textElement (kind : TextKind) {make : List UInt8 → CFObject δ}
    (hmake : make = kind.value strtod) {st st' : ReadState} {v : CFObject δ} {d : Cursor}
    {msg : ReadError} (hc : st.cursor.dropWhile isWs = byte '<' :: d)
    (hname : (CString.ofBytes (d.takeWhile isNameChar)).bytes = kind.name)
    (h : textElement kind.name msg make ⟨afterTag d, st.errors⟩ = .ok (some v, st')) :
    ∃ e : Element, e.Valid ∧ st.cursor = e.bytes ++ st'.cursor ∧ e.value strtod = v := by
  obtain ⟨closed, c', hclose, -⟩ :=
    exists_expectCloseTag ((afterTag d).dropWhile (· != byte '<')) kind.name
  simp only [textElement, readText_eq, ok_bind, hclose] at h
  cases closed with
  | false => cases h
  | true =>
    cases h
    obtain ⟨raw, trail, hraw, htrail, hraweq, htext⟩ := exists_text hclose
    have hafter : afterTag d ≠ [] := by
      rw [htext]
      simp [CloseTag.bytes]
    obtain ⟨lead, t, hlead, ht, htn, hst⟩ := exists_openTag_of_dropWhile hc hafter
    refine ⟨.text kind lead t raw trail, ⟨hlead, ht, ?_, hraw, htrail⟩, ?_, ?_⟩
    · rw [OpenTag.Named, htn]
      exact hname
    · rw [hst, htext, Element.bytes]
      simp only [List.append_assoc]
    · rw [Element.value, hmake, hraweq]

/-- The step of soundness for `parseValue`. -/
private lemma value_sound {fuel : ℕ} (hdict : DictSound strtod mutability fuel)
    (harray : ArraySound strtod mutability fuel) : ValueSound strtod mutability (fuel + 1) := by
  intro st st' v h hleft
  rw [parseValue] at h
  simp only [skipWs_eq, ok_bind, atByte_eq] at h
  cases hc : st.cursor.dropWhile isWs with
  | nil => rw [hc] at h; cases h
  | cons b c =>
    rw [hc] at h
    by_cases hb : b = byte '<'
    · subst hb
      obtain ⟨slash, htag⟩ := readTagName_eq c
      simp only [List.head?_cons, BEq.rfl, Bool.not_true, Bool.false_eq_true, if_false,
        advance_cons_one, ok_bind, htag] at h
      split_ifs at h with hdictName harrayName htrue hfalse hstring hinteger hreal hdata
      · obtain ⟨entries, close, hentries, hclose, hcat, rfl⟩ := hdict _ _ _ _ h
        have hcat' : afterTag c = _ := hcat
        have hafter : afterTag c ≠ [] := by
          rw [hcat']
          simp [CloseTag.bytes]
        obtain ⟨lead, t, hlead, ht, hname, hst⟩ := exists_openTag_of_dropWhile hc hafter
        refine ⟨.dict lead t entries close,
          ⟨hlead, ht, by rw [OpenTag.Named, hname]; exact hdictName, hentries, hclose⟩, ?_, rfl⟩
        rw [hst, hcat', Element.bytes]
        simp only [List.append_assoc]
      · obtain ⟨items, close, hitems, hclose, hcat, rfl⟩ := harray _ _ _ _ h
        have hcat' : afterTag c = _ := hcat
        have hafter : afterTag c ≠ [] := by
          rw [hcat']
          simp [CloseTag.bytes]
        obtain ⟨lead, t, hlead, ht, hname, hst⟩ := exists_openTag_of_dropWhile hc hafter
        refine ⟨.array lead t items close,
          ⟨hlead, ht, by rw [OpenTag.Named, hname]; exact harrayName, hitems, hclose⟩, ?_, ?_⟩
        · rw [hst, hcat', Element.bytes]
          simp only [List.append_assoc]
        · rw [Element.value, List.nil_append]
      · cases h
        obtain ⟨lead, t, hlead, ht, hname, hst⟩ := exists_openTag_of_dropWhile hc hleft
        exact ⟨.boolean lead t true, ⟨hlead, ht, by rw [OpenTag.Named, hname]; exact htrue⟩,
          hst, rfl⟩
      · cases h
        obtain ⟨lead, t, hlead, ht, hname, hst⟩ := exists_openTag_of_dropWhile hc hleft
        exact ⟨.boolean lead t false, ⟨hlead, ht, by rw [OpenTag.Named, hname]; exact hfalse⟩,
          hst, rfl⟩
      · exact exists_textElement .string rfl hc hstring h
      · exact exists_textElement .integer rfl hc hinteger h
      · exact exists_textElement .real rfl hc hreal h
      · exact exists_textElement .data rfl hc hdata h
      · cases h
    · have hne : (some b == some (byte '<')) = false := by simpa using hb
      simp only [List.head?_cons, hne, Bool.not_false, if_true] at h
      cases h

variable (strtod mutability)

/-- **What the parsing functions read is the image of elements.**

**Proof sketch.** Induction on the fuel; the three lemmas above are the step. -/
lemma parse_sound (fuel : ℕ) : ValueSound strtod mutability fuel ∧
    DictSound strtod mutability fuel ∧ ArraySound strtod mutability fuel := by
  induction fuel with
  | zero =>
    refine ⟨fun st st' v h => ?_, fun d st st' v h => ?_, fun a st st' v h => ?_⟩
    · cases h
    · cases h
    · cases h
  | succ fuel ih =>
    obtain ⟨hvalue, hdict, harray⟩ := ih
    exact ⟨value_sound hdict harray, dict_sound hvalue hdict, array_sound hvalue harray⟩

end Asteros.CoreFoundation
