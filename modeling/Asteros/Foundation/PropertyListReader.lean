import Asteros.Foundation.PropertyListWriter

set_option autoImplicit false

/-!
# Foundation's property list reader

The reader half of `NSPropertyListSerialization.m`. It works on a NUL-terminated copy of the data
with the string functions of the C library, none of which passes the terminator, so a cursor is
what is left of the C string. Tags are compared literally, text goes up to the first occurrence of
its closing tag, and nothing is checked after the value.

## Main definitions

* `skipWs`, `consume`, `textUntil` — the scanner.
* `parseValue`, `parseDict`, `parseArray` — the parser.
* `propertyListWithData` — the whole document.

## Main results

* `consume_tag` — a tag at the cursor is consumed by its own literal only.
* `textUntil_plain` — a text without tags is read and unescaped.
* `propertyListWithData_nulFree` — there is no NUL in what is read.
-/

namespace Asteros.Foundation

open Asteros.Libc Asteros.CoreFoundation

variable {δ : Type}

/-! ## The scanner -/

/-- What begins at an occurrence is part of what was searched. -/
lemma length_strstr {needle s a e : List UInt8} (h : strstr needle s = some (a, e)) :
    e.length ≤ s.length ∧ needle.length ≤ e.length := by
  induction s generalizing a with
  | nil =>
    rw [strstr] at h
    split_ifs at h with hn
    obtain ⟨-, rfl⟩ := Prod.mk.inj (Option.some.inj h)
    exact ⟨le_rfl, by simp [hn]⟩
  | cons b s ih =>
    rw [strstr] at h
    split_ifs at h with hp
    · obtain ⟨-, rfl⟩ := Prod.mk.inj (Option.some.inj h)
      exact ⟨le_rfl, (List.isPrefixOf_iff_prefix.mp hp).length_le⟩
    · obtain ⟨⟨a', e'⟩, hs, heq⟩ := Option.map_eq_some_iff.mp h
      obtain ⟨-, rfl⟩ := Prod.mk.inj heq
      obtain ⟨h₁, h₂⟩ := ih hs
      exact ⟨by rw [List.length_cons]; omega, h₂⟩

/-- `skip_ws`: whitespace and comments; an unterminated comment is left. -/
def skipWs (p : Cursor) : Cursor :=
  if (ascii "<!--").isPrefixOf (p.dropWhile isWs) then
    match _h : strstr (ascii "-->") (p.dropWhile isWs) with
    | none => p.dropWhile isWs
    | some (_, e) => skipWs (e.drop 3)
  else p.dropWhile isWs
termination_by p.length
decreasing_by
  obtain ⟨h₁, h₂⟩ := length_strstr _h
  have hdrop : (p.dropWhile isWs).length ≤ p.length := (List.dropWhile_sublist _).length_le
  have hlen : (ascii "-->").length = 3 := rfl
  rw [List.length_drop]
  omega

/-- `consume`, which skips whitespace also when it fails. -/
def consume (p : Cursor) (lit : List UInt8) : Bool × Cursor :=
  let p := skipWs p
  if lit.isPrefixOf p then (true, p.drop lit.length) else (false, p)

/-- `peek`. -/
def peek (p : Cursor) (lit : List UInt8) : Bool := (consume p lit).1

/-- The entity that `p` starts with: the character, and how many more characters it has. -/
def entityAt (p : List UInt8) : Option (UInt8 × ℕ) :=
  if (ascii "&amp;").isPrefixOf p then some (byte '&', 4)
  else if (ascii "&lt;").isPrefixOf p then some (byte '<', 3)
  else if (ascii "&gt;").isPrefixOf p then some (byte '>', 3)
  else if (ascii "&apos;").isPrefixOf p then some (byte '\'', 5)
  else if (ascii "&quot;").isPrefixOf p then some (byte '"', 5)
  else none

/-- The loop of `text_until`, with `skip` characters consumed by an entity and `rem` characters
of raw text left. The entities are compared with all that follows, also past the raw text. -/
def textLoop : ℕ → ℕ → List UInt8 → List UInt8
  | _, 0, _ => []
  | _, _ + 1, [] => []
  | skip + 1, rem + 1, _ :: p => textLoop skip rem p
  | 0, rem + 1, b :: p =>
    match entityAt (b :: p) with
    | some (ch, skip) => ch :: textLoop skip rem p
    | none => b :: textLoop 0 rem p

/-- `text_until`. -/
def textUntil (p : Cursor) (closeTag : List UInt8) : Option (List UInt8 × Cursor) :=
  match strstr closeTag p with
  | none => none
  | some (raw, e) => some (textLoop 0 raw.length p, e.drop closeTag.length)

/-! ## The parser -/

/-- What a parsing function returns: `none` is `nil`, after which the cursor is not used. -/
abbrev Parsed (δ : Type) := Option (CFObject δ × Cursor)

/-- An element with text, after its opening tag. -/
def textElement (p : Cursor) (closeTag : List UInt8) (make : List UInt8 → Option (CFObject δ)) :
    Parsed δ :=
  match textUntil p closeTag with
  | none => none
  | some (text, p) => (make text).map (·, p)

/-- `base64_decode`. -/
def base64Decode (s : List UInt8) : List UInt8 := Base64.decode s

/-- `-initWithUTF8String:`. -/
def initWithUTF8String (s : List UInt8) : List UInt8 := (CString.ofBytes s).bytes

/-- The elements that `parseValue` consumes itself, in its order. -/
def parseLeaf (lib : Library δ) (p : Cursor) : Parsed δ :=
  let (atTrue, p) := consume p (ascii "<true/>")
  if atTrue then some (.boolean true, p) else
  let (atFalse, p) := consume p (ascii "<false/>")
  if atFalse then some (.boolean false, p) else
  let (atString, p) := consume p (ascii "<string>")
  if atString then
    textElement p (ascii "</string>") fun text => some (.string (initWithUTF8String text)) else
  let (atInteger, p) := consume p (ascii "<integer>")
  if atInteger then textElement p (ascii "</integer>") fun text =>
    some (.integer (strtol (CString.ofBytes text) 10).1) else
  let (atReal, p) := consume p (ascii "<real>")
  if atReal then textElement p (ascii "</real>") fun text =>
    some (.real (lib.strtod (CString.ofBytes text))) else
  let (atData, p) := consume p (ascii "<data>")
  if atData then textElement p (ascii "</data>") fun text =>
    some (.data (base64Decode (CString.ofBytes text).bytes)) else
  let (atDate, p) := consume p (ascii "<date>")
  if atDate then textElement p (ascii "</date>") fun text =>
    (lib.parseDate (CString.ofBytes text)).map .date
  else none

mutual
/-- `parseValue`. -/
def parseValue (lib : Library δ) : ℕ → Cursor → Except Fault (Parsed δ)
  | 0, _ => .error .outOfFuel
  | fuel + 1, p =>
    let p := skipWs p
    if peek p (ascii "<dict>") then parseDict lib fuel p
    else if peek p (ascii "<array>") then parseArray lib fuel p
    else .ok (parseLeaf lib p)

/-- `parseDict`. -/
def parseDict (lib : Library δ) : ℕ → Cursor → Except Fault (Parsed δ)
  | 0, _ => .error .outOfFuel
  | fuel + 1, p =>
    let (opened, p) := consume p (ascii "<dict>")
    if !opened then .ok none else dictLoop lib fuel [] p

/-- The loop of `parseDict`, with the entries read so far. -/
def dictLoop (lib : Library δ) : ℕ → Entries δ → Cursor → Except Fault (Parsed δ)
  | 0, _, _ => .error .outOfFuel
  | fuel + 1, d, p =>
    let (closed, p) := consume p (ascii "</dict>")
    if closed then .ok (some (.dictionary d, p)) else
    let (opened, p) := consume p (ascii "<key>")
    if !opened then .ok none else
    match textUntil p (ascii "</key>") with
    | none => .ok none
    | some (keyText, p) => do
      match ← parseValue lib fuel p with
      | none => .ok none
      | some (value, p) =>
        dictLoop lib fuel (cfDictionarySetValue d (initWithUTF8String keyText) value) p

/-- `parseArray`. -/
def parseArray (lib : Library δ) : ℕ → Cursor → Except Fault (Parsed δ)
  | 0, _ => .error .outOfFuel
  | fuel + 1, p =>
    let (opened, p) := consume p (ascii "<array>")
    if !opened then .ok none else arrayLoop lib fuel [] p

/-- The loop of `parseArray`, with the values read so far. -/
def arrayLoop (lib : Library δ) : ℕ → List (CFObject δ) → Cursor → Except Fault (Parsed δ)
  | 0, _, _ => .error .outOfFuel
  | fuel + 1, a, p =>
    let (closed, p) := consume p (ascii "</array>")
    if closed then .ok (some (.array a, p)) else do
      match ← parseValue lib fuel p with
      | none => .ok none
      | some (value, p) => arrayLoop lib fuel (a ++ [value]) p
end

/-- `+propertyListWithData:options:format:error:`; `none` is `nil`. Every two rounds of the parser
consume a character. -/
def propertyListWithData (lib : Library δ) (data : List UInt8) :
    Except Fault (Option (CFObject δ)) :=
  match strstr (ascii "<plist") (CString.ofBytes data).bytes with
  | none => .ok none
  | some (_, p) =>
    match p.dropWhile (· != byte '>') with
    | [] => .ok none
    | _ :: p => do
      let result ← parseValue lib (2 * data.length + 2) p
      .ok (result.map Prod.fst)

/-! ## The scanner on tags and texts -/

/-- Before a tag that is no comment, whitespace is skipped. -/
lemma skipWs_tag {lead : List UInt8} (hlead : Blank lead) {b : UInt8} (hb : b ≠ byte '!')
    (c : List UInt8) : skipWs (lead ++ byte '<' :: b :: c) = byte '<' :: b :: c := by
  have hdrop : (lead ++ byte '<' :: b :: c).dropWhile isWs = byte '<' :: b :: c :=
    dropWhile_blank hlead (by decide) _
  have hmismatch : Mismatch (ascii "<!--") [byte '<', b] = true := by
    simpa [Mismatch, ascii] using Ne.symm hb
  have hcomment : (ascii "<!--").isPrefixOf (byte '<' :: b :: c) = false :=
    isPrefixOf_append_of_mismatch hmismatch c
  rw [skipWs, hdrop, if_neg (by rw [hcomment]; decide)]

/-- A tag of the literals: it is no comment. -/
def IsTag (tag : List UInt8) : Bool :=
  tag.head? == some (byte '<') && tag.tail.head?.any fun b => b != byte '!'

/-- The parts of a tag. -/
lemma IsTag.exists_cons {tag : List UInt8} (h : IsTag tag = true) :
    ∃ b rest, tag = byte '<' :: b :: rest ∧ b ≠ byte '!' := by
  rcases tag with _ | ⟨b₀, _ | ⟨b, rest⟩⟩
  · simp [IsTag] at h
  · simp [IsTag] at h
  · simp only [IsTag, List.head?_cons, List.tail_cons, Bool.and_eq_true, beq_iff_eq,
      Option.some.injEq, Option.any_some, bne_iff_ne, ne_eq] at h
    exact ⟨b, rest, by rw [h.1], h.2⟩

/-- Whitespace before a tag is skipped. -/
lemma skipWs_of_isTag {lead tag : List UInt8} (hlead : Blank lead) (h : IsTag tag = true)
    (c : List UInt8) : skipWs (lead ++ (tag ++ c)) = tag ++ c := by
  obtain ⟨b, rest, rfl, hb⟩ := IsTag.exists_cons h
  exact skipWs_tag hlead hb _

/-- **A tag is consumed by its own literal.** -/
lemma consume_tag {lead tag : List UInt8} (hlead : Blank lead) (h : IsTag tag = true)
    (c : List UInt8) : consume (lead ++ (tag ++ c)) tag = (true, c) := by
  rw [consume, skipWs_of_isTag hlead h]
  simp

/-- A tag is not consumed by another literal. -/
lemma consume_mismatch {lead tag lit : List UInt8} (hlead : Blank lead) (h : IsTag tag = true)
    (hm : Mismatch lit tag = true) (c : List UInt8) :
    consume (lead ++ (tag ++ c)) lit = (false, tag ++ c) := by
  simp only [consume, skipWs_of_isTag hlead h, isPrefixOf_append_of_mismatch hm,
    Bool.false_eq_true, if_false]

/-- A tag at the cursor is consumed by its own literal. -/
lemma consume_self {tag : List UInt8} (h : IsTag tag = true) (c : List UInt8) :
    consume (tag ++ c) tag = (true, c) := by
  have hlead := consume_tag Spelling.blank_nil h c
  rwa [List.nil_append] at hlead

/-- A tag at the cursor is not consumed by another literal. -/
lemma consume_other {tag lit : List UInt8} (h : IsTag tag = true) (hm : Mismatch lit tag = true)
    (c : List UInt8) : consume (tag ++ c) lit = (false, tag ++ c) := by
  have hlead := consume_mismatch Spelling.blank_nil h hm c
  rwa [List.nil_append] at hlead

/-- The two readers look for the same entities. -/
lemma entityAt_eq (p : List UInt8) : entityAt p = entityOf p := by
  have hne : ¬((ascii "&quot;").isPrefixOf p = true ∧ (ascii "&apos;").isPrefixOf p = true) := by
    rintro ⟨hq, ha⟩
    obtain ⟨c, rfl⟩ := List.isPrefixOf_iff_prefix.mp hq
    rw [isPrefixOf_append_of_mismatch (by decide)] at ha
    exact absurd ha (by decide)
  unfold entityAt entityOf
  split_ifs with h₁ h₂ h₃ h₄ h₅
  · rfl
  · rfl
  · rfl
  · exact absurd ⟨h₅, h₄⟩ hne
  · rfl
  · rfl
  · rfl

/-- A text without tags ends any literal that has none. -/
private lemma isPrefixOf_before_tag {lit : List UInt8} (hlit : byte '<' ∉ lit) {raw : List UInt8}
    (c : List UInt8) : lit.isPrefixOf (raw ++ byte '<' :: c) = lit.isPrefixOf raw := by
  induction lit generalizing raw with
  | nil => simp
  | cons b lit ih =>
    rw [List.mem_cons, not_or] at hlit
    cases raw with
    | nil =>
      rw [List.nil_append, List.isPrefixOf_cons_cons, beq_false_of_ne (Ne.symm hlit.1),
        Bool.false_and]
      rfl
    | cons b' raw => simp only [List.cons_append, List.isPrefixOf_cons_cons, ih hlit.2]

/-- The raw text is unescaped as the other reader does it. -/
lemma textLoop_eq (skip : ℕ) (raw c : List UInt8) :
    textLoop skip raw.length (raw ++ byte '<' :: c) = unescapeFrom skip raw := by
  induction raw generalizing skip with
  | nil => cases skip <;> rfl
  | cons b raw ih =>
    cases skip with
    | succ skip => exact ih skip
    | zero =>
      have hentity : entityAt (b :: (raw ++ byte '<' :: c)) = entityOf (b :: raw) := by
        rw [entityAt_eq]
        unfold entityOf
        rw [← List.cons_append]
        simp only [isPrefixOf_before_tag (show byte '<' ∉ ascii "&amp;" by decide),
          isPrefixOf_before_tag (show byte '<' ∉ ascii "&lt;" by decide),
          isPrefixOf_before_tag (show byte '<' ∉ ascii "&gt;" by decide),
          isPrefixOf_before_tag (show byte '<' ∉ ascii "&quot;" by decide),
          isPrefixOf_before_tag (show byte '<' ∉ ascii "&apos;" by decide)]
      rw [List.length_cons, List.cons_append, textLoop, hentity, unescapeFrom]
      cases entityOf (b :: raw) with
      | none => exact congrArg (b :: ·) (ih 0)
      | some e => exact congrArg (e.1 :: ·) (ih e.2)

/-- **A text without tags is read up to its closing tag and unescaped.** -/
lemma textUntil_plain {raw text : List UInt8} (h : PlainText raw text) {tag : List UInt8}
    (htag : IsTag tag = true) (c : List UInt8) :
    textUntil (raw ++ (tag ++ c)) tag = some (text, c) := by
  obtain ⟨b, rest, rfl, -⟩ := IsTag.exists_cons htag
  rw [textUntil, strstr_append h.noTag]
  simp only [List.cons_append, textLoop_eq]
  rw [show unescapeFrom 0 raw = text from h.unescape]
  simp

/-! ## What is read has C strings only -/

/-- What an element with text gives is what is made of some text. -/
private lemma textElement_eq_some {p q : Cursor} {closeTag : List UInt8}
    {make : List UInt8 → Option (CFObject δ)} {o : CFObject δ}
    (h : textElement p closeTag make = some (o, q)) : ∃ text, make text = some o := by
  rw [textElement] at h
  split at h
  · cases h
  · next text p' _ =>
    obtain ⟨o', ho', heq⟩ := Option.map_eq_some_iff.mp h
    obtain ⟨rfl, -⟩ := Prod.mk.inj heq
    exact ⟨text, ho'⟩

/-- An element without children gives an object without a NUL. -/
private lemma parseLeaf_nulFree {lib : Library δ} {p q : Cursor} {o : CFObject δ}
    (h : parseLeaf lib p = some (o, q)) : o.NulFree := by
  have htext : ∀ {p closeTag make}, textElement p closeTag make = some (o, q) →
      (∀ text o', make text = some o' → o'.NulFree) → o.NulFree := fun h hmake => by
    obtain ⟨text, ho⟩ := textElement_eq_some h
    exact hmake text o ho
  simp only [parseLeaf] at h
  split_ifs at h
  · obtain ⟨rfl, -⟩ := Prod.mk.inj (Option.some.inj h)
    exact trivial
  · obtain ⟨rfl, -⟩ := Prod.mk.inj (Option.some.inj h)
    exact trivial
  · refine htext h fun text o' ho' => ?_
    obtain rfl := Option.some.inj ho'
    exact (CString.ofBytes text).nulFree
  · refine htext h fun text o' ho' => ?_
    obtain rfl := Option.some.inj ho'
    exact trivial
  · refine htext h fun text o' ho' => ?_
    obtain rfl := Option.some.inj ho'
    exact trivial
  · refine htext h fun text o' ho' => ?_
    obtain rfl := Option.some.inj ho'
    exact trivial
  · refine htext h fun text o' ho' => ?_
    obtain ⟨secs, -, rfl⟩ := Option.map_eq_some_iff.mp ho'
    exact trivial

/-- A dictionary with C strings for its keys and values without a NUL. -/
private lemma nulFree_dictionary {es : Entries δ} (h : ∀ e ∈ es, 0 ∉ e.1 ∧ e.2.NulFree) :
    (CFObject.dictionary es).NulFree := by
  refine ⟨fun k hk => ?_, (CFObject.everywhereEntries_iff es).mpr fun e he => (h e he).2⟩
  obtain ⟨e, he, rfl⟩ := List.mem_map.mp hk
  exact (h e he).1

/-- What the parsing functions give with the given fuel has no NUL. -/
private def ParsesNulFree (lib : Library δ) (fuel : ℕ) : Prop :=
  (∀ p o q, parseValue lib fuel p = .ok (some (o, q)) → o.NulFree) ∧
  (∀ p o q, parseDict lib fuel p = .ok (some (o, q)) → o.NulFree) ∧
  (∀ d p o q, (∀ e ∈ d, 0 ∉ e.1 ∧ e.2.NulFree) → dictLoop lib fuel d p = .ok (some (o, q)) →
    o.NulFree) ∧
  (∀ p o q, parseArray lib fuel p = .ok (some (o, q)) → o.NulFree) ∧
  (∀ a p o q, (∀ x ∈ a, x.NulFree) → arrayLoop lib fuel a p = .ok (some (o, q)) → o.NulFree)

/-- One round of the parser. -/
private lemma ParsesNulFree.succ {lib : Library δ} {fuel : ℕ} (ih : ParsesNulFree lib fuel) :
    ParsesNulFree lib (fuel + 1) := by
  obtain ⟨hvalue, hdict, hdictLoop, harray, harrayLoop⟩ := ih
  refine ⟨fun p o q h => ?_, fun p o q h => ?_, fun d p o q hd h => ?_, fun p o q h => ?_,
    fun a p o q ha h => ?_⟩
  · simp only [parseValue] at h
    split_ifs at h
    · exact hdict _ _ _ h
    · exact harray _ _ _ h
    · exact parseLeaf_nulFree (Except.ok.inj h)
  · simp only [parseDict] at h
    split_ifs at h
    · cases h
    · exact hdictLoop _ _ _ _ (by simp) h
  · simp only [dictLoop] at h
    split_ifs at h
    · obtain ⟨rfl, -⟩ := Prod.mk.inj (Option.some.inj (Except.ok.inj h))
      exact nulFree_dictionary hd
    · cases h
    · split at h
      · cases h
      · next keyText p' _ =>
        obtain ⟨r, hr, h⟩ := ok_of_bind h
        cases r with
        | none => cases h
        | some r =>
          refine hdictLoop _ _ _ _ (fun e he => ?_) h
          rcases mem_setValue he with he | rfl
          · exact hd e he
          · exact ⟨(CString.ofBytes keyText).nulFree, hvalue _ _ _ hr⟩
  · simp only [parseArray] at h
    split_ifs at h
    · cases h
    · exact harrayLoop _ _ _ _ (by simp) h
  · simp only [arrayLoop] at h
    split_ifs at h
    · obtain ⟨rfl, -⟩ := Prod.mk.inj (Option.some.inj (Except.ok.inj h))
      exact ⟨trivial, (CFObject.everywhereValues_iff a).mpr ha⟩
    · obtain ⟨r, hr, h⟩ := ok_of_bind h
      cases r with
      | none => cases h
      | some r =>
        refine harrayLoop _ _ _ _ (fun x hx => ?_) h
        rcases List.mem_append.mp hx with hx | hx
        · exact ha x hx
        · rw [List.mem_singleton.mp hx]
          exact hvalue _ _ _ hr

/-- **What is read has no NUL in its strings and keys**, whatever the data: all of them are made
of C strings.

**Proof sketch.** Induction on the fuel (`ParsesNulFree.succ`). -/
theorem propertyListWithData_nulFree {lib : Library δ} {data : List UInt8} {o : CFObject δ}
    (h : propertyListWithData lib data = .ok (some o)) : o.NulFree := by
  have hparses : ∀ fuel, ParsesNulFree lib fuel := by
    intro fuel
    induction fuel with
    | zero =>
      refine ⟨?_, ?_, ?_, ?_, ?_⟩
      all_goals
        intros
        contradiction
    | succ fuel ih => exact ih.succ
  rw [propertyListWithData] at h
  split at h
  · cases h
  · split at h
    · cases h
    · obtain ⟨r, hr, h⟩ := ok_of_bind h
      obtain ⟨⟨o', q⟩, rfl, rfl⟩ := Option.map_eq_some_iff.mp (Except.ok.inj h)
      exact (hparses _).1 _ _ _ hr

end Asteros.Foundation
