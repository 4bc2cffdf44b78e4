import Asteros.CoreFoundation.Object
import Asteros.Lib.Base64
import Asteros.Libc.Stdlib

set_option autoImplicit false

/-!
# The XML property list reader

The reader half of `CFPropertyList.c`. A cursor is the part of the buffer from `p` to `end`;
every access goes through `deref`, `memcmp` and `advance`, which fault outside that part, so the
bounds tests of the code are the only thing that keeps a run from faulting. The recursive
functions take fuel, and running out of it is a fault of its own.

## Main definitions

* `Cursor`, `Fault` — the buffer and its bounds.
* `readText`, `readTagName`, `expectCloseTag` — the scanner.
* `parseValue`, `parseDict`, `parseArray` — the parser.
* `cfPropertyListCreateFromXMLData` — the whole document.

## Main results

* `readText_eq`, `readTagName_eq`, `expectCloseTag_eq` — the scanner without faults.
-/

namespace Asteros.CoreFoundation

open Asteros.Libc

/-! ## The cursor -/

/-- What a run must not do. -/
inductive Fault where
  /-- A read outside the buffer, or a cursor beyond its end. -/
  | outOfBounds
  /-- The bound on the number of steps was too small. -/
  | outOfFuel
  deriving DecidableEq

/-- The bytes from `c->p` to `c->end`. -/
abbrev Cursor := List UInt8

/-- `c->p[i]`. -/
def deref (c : Cursor) (i : ℕ) : Except Fault UInt8 :=
  match (c.drop i).head? with
  | some b => .ok b
  | none => .error .outOfBounds

/-- `c->p += n`. -/
def advance (c : Cursor) (n : ℕ) : Except Fault Cursor :=
  if n ≤ c.length then .ok (c.drop n) else .error .outOfBounds

/-- `memcmp(c->p, lit, strlen(lit)) == 0`. -/
def memcmp (c : Cursor) (lit : List UInt8) : Except Fault Bool :=
  if lit.length ≤ c.length then .ok (c.take lit.length == lit) else .error .outOfBounds

/-- The loops `while (c->p < c->end && test(*c->p)) c->p++`. -/
def scanWhile (test : UInt8 → Bool) : Cursor → Except Fault Cursor
  | [] => .ok []
  | b :: c => do
    if test (← deref (b :: c) 0) then scanWhile test c else .ok (b :: c)

/-! ## The scanner -/

/-- The whitespace that `skipWs` skips. -/
def isWs (b : UInt8) : Bool := b == byte ' ' || b == byte '\t' || b == byte '\n' || b == byte '\r'

/-- `skipWs`. -/
def skipWs (c : Cursor) : Except Fault Cursor := scanWhile isWs c

/-- `skipDirective`. -/
def skipDirective (c : Cursor) : Except Fault Cursor := do
  let c ← scanWhile (· != byte '>') c
  if 0 < c.length then advance c 1 else .ok c

/-- `skipProlog`. -/
def skipProlog : ℕ → Cursor → Except Fault Cursor
  | 0, _ => .error .outOfFuel
  | fuel + 1, c => do
    let c ← skipWs c
    if 1 < c.length then
      if (← deref c 0) = byte '<' then
        let b ← deref c 1
        if b = byte '?' ∨ b = byte '!' then
          let c ← skipDirective c
          skipProlog fuel c
        else .ok c
      else .ok c
    else .ok c

/-- A guarded comparison of what lies at the cursor with a literal. -/
def startsWith (c : Cursor) (lit : List UInt8) : Except Fault Bool :=
  if lit.length ≤ c.length then memcmp c lit else .ok false

/-- The entity at an ampersand: the character, and how far `i` moves before its increment. -/
def entityAt (raw : Cursor) : Except Fault (Option (UInt8 × ℕ)) := do
  if ← startsWith raw (ascii "&amp;") then .ok (some (byte '&', 4))
  else if ← startsWith raw (ascii "&lt;") then .ok (some (byte '<', 3))
  else if ← startsWith raw (ascii "&gt;") then .ok (some (byte '>', 3))
  else if ← startsWith raw (ascii "&quot;") then .ok (some (byte '"', 5))
  else if ← startsWith raw (ascii "&apos;") then .ok (some (byte '\'', 5))
  else .ok none

/-- The entity that starts with the character `ch`, which only an ampersand does. -/
def entityHere (ch : UInt8) (raw : Cursor) : Except Fault (Option (UInt8 × ℕ)) :=
  if ch = byte '&' then entityAt (ch :: raw) else .ok none

/-- The loop of `readText` over the raw text, `skip` characters of which an entity has already
consumed. -/
def unescapeLoop : ℕ → Cursor → Except Fault (List UInt8)
  | _, [] => .ok []
  | skip + 1, _ :: raw => unescapeLoop skip raw
  | 0, ch :: raw => do
    match ← entityHere ch raw with
    | some (b, skip) => do
      let rest ← unescapeLoop skip raw
      .ok (b :: rest)
    | none => do
      let rest ← unescapeLoop 0 raw
      .ok (ch :: rest)

/-- `readText`: the text up to the next `<`. -/
def readText (c : Cursor) : Except Fault (List UInt8 × Cursor) := do
  let c' ← scanWhile (· != byte '<') c
  let text ← unescapeLoop 0 (c.take (c.length - c'.length))
  .ok (text, c')

/-- The characters of a tag name. -/
def isNameChar (b : UInt8) : Bool :=
  b != byte ' ' && b != byte '\t' && b != byte '\n' && b != byte '>' && b != byte '/'

/-- The loop of `readTagName` over the rest of the tag. -/
def tagRest : Cursor → Bool → Except Fault (Bool × Cursor)
  | [], selfClosing => .ok (selfClosing, [])
  | b :: c, selfClosing => do
    let b' ← deref (b :: c) 0
    if b' ≠ byte '>' then tagRest c (selfClosing || b' == byte '/') else .ok (selfClosing, b :: c)

/-- `readTagName`: the name, and whether a `/` precedes the `>`. -/
def readTagName (c : Cursor) : Except Fault (CString × Bool × Cursor) := do
  let c' ← scanWhile isNameChar c
  let name := CString.ofBytes (c.take (c.length - c'.length))
  let (selfClosing, c) ← tagRest c' false
  if 0 < c.length then do
    let c ← advance c 1
    .ok (name, selfClosing, c)
  else .ok (name, selfClosing, c)

/-- `c->p < c->end && *c->p == b`, as the tests of the code write it. -/
def atByte (c : Cursor) (b : UInt8) : Except Fault Bool := do
  if 0 < c.length then .ok ((← deref c 0) == b) else .ok false

/-- `expectCloseTag`. -/
def expectCloseTag (c : Cursor) (name : List UInt8) : Except Fault (Bool × Cursor) := do
  let c ← skipWs c
  if !(← atByte c (byte '<')) then .ok (false, c)
  else do
    let c ← advance c 1
    if !(← atByte c (byte '/')) then .ok (false, c)
    else do
      let c ← advance c 1
      if !(← startsWith c name) then .ok (false, c)
      else do
        let c ← advance c name.length
        let c ← skipWs c
        if !(← atByte c (byte '>')) then .ok (false, c)
        else do
          let c ← advance c 1
          .ok (true, c)

/-- `c->p + 1 < c->end && c->p[0] == '<' && c->p[1] == '/'`. -/
def closeTagAhead (c : Cursor) : Except Fault Bool := do
  if 1 < c.length then
    if (← deref c 0) = byte '<' then .ok ((← deref c 1) == byte '/') else .ok false
  else .ok false

/-! ## The scanner without faults -/

/-- A step that succeeds is followed by the rest. -/
@[simp] lemma ok_bind {α β : Type} (a : α) (f : α → Except Fault β) :
    (Except.ok a >>= f) = f a := rfl

/-- Two steps that succeed together both succeed. -/
lemma ok_of_bind {α β : Type} {x : Except Fault α} {f : α → Except Fault β} {b : β}
    (h : (x >>= f) = .ok b) : ∃ a, x = .ok a ∧ f a = .ok b := by
  cases x with
  | error e => cases h
  | ok a => exact ⟨a, rfl, h⟩

/-- A read at the cursor. -/
@[simp] lemma deref_cons_zero (b : UInt8) (c : Cursor) : deref (b :: c) 0 = .ok b := rfl

/-- A read one past the cursor. -/
@[simp] lemma deref_cons_one (b b' : UInt8) (c : Cursor) : deref (b :: b' :: c) 1 = .ok b' := rfl

/-- One step forward. -/
@[simp] lemma advance_cons_one (b : UInt8) (c : Cursor) : advance (b :: c) 1 = .ok c := by
  simp [advance]

/-- Stepping over a prefix. -/
@[simp] lemma advance_append (s c : Cursor) : advance (s ++ c) s.length = .ok c := by
  simp [advance]

/-- A scanning loop stops at the first byte that fails its test. -/
@[simp] lemma scanWhile_eq (test : UInt8 → Bool) (c : Cursor) :
    scanWhile test c = .ok (c.dropWhile test) := by
  induction c with
  | nil => rfl
  | cons b c ih =>
    by_cases hb : test b
    · simp [scanWhile, hb, ih]
    · simp [scanWhile, hb]

/-- `skipWs` skips the leading whitespace. -/
@[simp] lemma skipWs_eq (c : Cursor) : skipWs c = .ok (c.dropWhile isWs) := scanWhile_eq isWs c

/-- A directive ends after the next `>`. -/
@[simp] lemma skipDirective_eq (c : Cursor) :
    skipDirective c = .ok (c.dropWhile (· != byte '>')).tail := by
  rw [skipDirective, scanWhile_eq, ok_bind]
  cases c.dropWhile (· != byte '>') with
  | nil => rfl
  | cons b c => simp

/-- A guarded comparison is a prefix test. -/
@[simp] lemma startsWith_eq (c : Cursor) (lit : List UInt8) :
    startsWith c lit = .ok (lit.isPrefixOf c) := by
  unfold startsWith memcmp
  by_cases hlen : lit.length ≤ c.length
  · rw [if_pos hlen, if_pos hlen]
    congr 1
    rw [Bool.eq_iff_iff, beq_iff_eq, List.isPrefixOf_iff_prefix, List.prefix_iff_eq_take]
    exact eq_comm
  · rw [if_neg hlen]
    congr 1
    rw [eq_comm, Bool.eq_false_iff, ne_eq, List.isPrefixOf_iff_prefix]
    exact fun h => hlen h.length_le

/-- A guarded test of the byte at the cursor. -/
@[simp] lemma atByte_eq (c : Cursor) (b : UInt8) : atByte c b = .ok (c.head? == some b) := by
  cases c with
  | nil => rfl
  | cons b' c => simp [atByte]

/-- The guarded test for a close tag. -/
@[simp] lemma closeTagAhead_eq (c : Cursor) :
    closeTagAhead c = .ok ((ascii "</").isPrefixOf c) := by
  match c with
  | [] => rfl
  | [b] => simp [closeTagAhead, ascii, byte, List.isPrefixOf]
  | b :: b' :: c =>
    by_cases hb : b = byte '<'
    · subst hb
      simp [closeTagAhead, ascii, byte, List.isPrefixOf, Bool.beq_comm]
    · have hb' : (byte '<' == b) = false := beq_eq_false_iff_ne.mpr fun h => hb h.symm
      rw [show ascii "</" = [byte '<', byte '/'] from rfl]
      simp [closeTagAhead, List.isPrefixOf, hb, hb']

/-- The entity at an ampersand. -/
def entityOf (raw : List UInt8) : Option (UInt8 × ℕ) :=
  if (ascii "&amp;").isPrefixOf raw then some (byte '&', 4)
  else if (ascii "&lt;").isPrefixOf raw then some (byte '<', 3)
  else if (ascii "&gt;").isPrefixOf raw then some (byte '>', 3)
  else if (ascii "&quot;").isPrefixOf raw then some (byte '"', 5)
  else if (ascii "&apos;").isPrefixOf raw then some (byte '\'', 5)
  else none

/-- The text with its entities replaced, `skip` characters of which are already consumed. -/
def unescapeFrom : ℕ → List UInt8 → List UInt8
  | _, [] => []
  | skip + 1, _ :: raw => unescapeFrom skip raw
  | 0, ch :: raw =>
    match entityOf (ch :: raw) with
    | some (b, skip) => b :: unescapeFrom skip raw
    | none => ch :: unescapeFrom 0 raw

/-- The text with its entities replaced. -/
def unescape (raw : List UInt8) : List UInt8 := unescapeFrom 0 raw

/-- Looking an entity up does not fault. -/
lemma entityAt_eq (raw : Cursor) : entityAt raw = .ok (entityOf raw) := by
  simp only [entityAt, startsWith_eq, ok_bind]
  unfold entityOf
  split_ifs <;> rfl

/-- Entities start with an ampersand. -/
lemma entityOf_eq_none {ch : UInt8} (h : ch ≠ byte '&') (raw : List UInt8) :
    entityOf (ch :: raw) = none := by
  have hne : ∀ s, (byte '&' :: s).isPrefixOf (ch :: raw) = false := fun s => by
    simp [List.isPrefixOf, Ne.symm h]
  unfold entityOf
  rw [show ascii "&amp;" = byte '&' :: ascii "amp;" from rfl,
    show ascii "&lt;" = byte '&' :: ascii "lt;" from rfl,
    show ascii "&gt;" = byte '&' :: ascii "gt;" from rfl,
    show ascii "&quot;" = byte '&' :: ascii "quot;" from rfl,
    show ascii "&apos;" = byte '&' :: ascii "apos;" from rfl]
  simp only [hne, Bool.false_eq_true, if_false]

/-- The loop of `readText` does not fault. -/
lemma unescapeLoop_eq (skip : ℕ) (raw : Cursor) :
    unescapeLoop skip raw = .ok (unescapeFrom skip raw) := by
  induction raw generalizing skip with
  | nil => cases skip <;> rfl
  | cons ch raw ih =>
    cases skip with
    | succ skip => exact ih skip
    | zero =>
      have hentity : entityHere ch raw = .ok (entityOf (ch :: raw)) := by
        unfold entityHere
        split_ifs with hch
        · exact entityAt_eq _
        · rw [entityOf_eq_none hch]
      rw [unescapeLoop, hentity, ok_bind, unescapeFrom]
      cases entityOf (ch :: raw) with
      | none => simp only [ih, ok_bind]
      | some e => simp only [ih, ok_bind]

/-- What a scanning loop has passed over. -/
lemma take_sub_dropWhile (test : UInt8 → Bool) (c : List UInt8) :
    c.take (c.length - (c.dropWhile test).length) = c.takeWhile test := by
  have hsplit : c.takeWhile test ++ c.dropWhile test = c := List.takeWhile_append_dropWhile
  have hlen : c.length - (c.dropWhile test).length = (c.takeWhile test).length := by
    have h := congrArg List.length hsplit
    rw [List.length_append] at h
    omega
  calc c.take (c.length - (c.dropWhile test).length)
      = (c.takeWhile test ++ c.dropWhile test).take (c.takeWhile test).length := by
        rw [hsplit, hlen]
    _ = c.takeWhile test := List.take_left

/-- **`readText` reads up to the next `<`.** -/
lemma readText_eq (c : Cursor) : readText c =
    .ok (unescape (c.takeWhile (· != byte '<')), c.dropWhile (· != byte '<')) := by
  rw [readText, scanWhile_eq, ok_bind, take_sub_dropWhile, unescapeLoop_eq, ok_bind]
  rfl

/-- The rest of a tag ends before the next `>`. -/
lemma tagRest_eq (c : Cursor) (slash : Bool) : ∃ slash',
    tagRest c slash = .ok (slash', c.dropWhile (· != byte '>')) := by
  induction c generalizing slash with
  | nil => exact ⟨slash, rfl⟩
  | cons b c ih =>
    by_cases hb : b = byte '>'
    · exact ⟨slash, by simp [tagRest, hb]⟩
    · obtain ⟨slash', h⟩ := ih (slash || b == byte '/')
      exact ⟨slash', by simp [tagRest, hb, h]⟩

/-- What follows the next `>`. -/
def afterTag (c : Cursor) : Cursor := (c.dropWhile (· != byte '>')).tail

/-- Dropping the name first does not change where the tag ends. -/
lemma dropWhile_isNameChar (c : Cursor) :
    (c.dropWhile isNameChar).dropWhile (· != byte '>') = c.dropWhile (· != byte '>') := by
  induction c with
  | nil => rfl
  | cons b c ih =>
    by_cases hb : isNameChar b
    · have hne : (b != byte '>') = true := by
        simp only [isNameChar, Bool.and_eq_true] at hb
        exact hb.1.2
      rw [List.dropWhile_cons_of_pos hb, ih,
        List.dropWhile_cons_of_pos (p := (· != byte '>')) hne]
    · rw [List.dropWhile_cons_of_neg hb]

/-- **`readTagName` reads the name and goes past the next `>`.** -/
lemma readTagName_eq (c : Cursor) : ∃ slash, readTagName c =
    .ok (CString.ofBytes (c.takeWhile isNameChar), slash, afterTag c) := by
  obtain ⟨slash, h⟩ := tagRest_eq (c.dropWhile isNameChar) false
  refine ⟨slash, ?_⟩
  rw [readTagName, scanWhile_eq, ok_bind, take_sub_dropWhile, h, ok_bind, dropWhile_isNameChar,
    afterTag]
  cases c.dropWhile (· != byte '>') with
  | nil => rfl
  | cons b c => simp

/-- `expectCloseTag` does not fault, and leaves the cursor inside the buffer. -/
lemma exists_expectCloseTag (c : Cursor) (name : List UInt8) :
    ∃ closed c', expectCloseTag c name = .ok (closed, c') ∧ c' <:+ c := by
  have hws : ∀ d : Cursor, d.dropWhile isWs <:+ d := fun d => List.dropWhile_suffix _
  simp only [expectCloseTag, skipWs_eq, ok_bind, atByte_eq, startsWith_eq]
  cases hc : c.dropWhile isWs with
  | nil => exact ⟨false, [], by simp, List.nil_suffix⟩
  | cons b₁ c₁ =>
    have h₁ : b₁ :: c₁ <:+ c := hc ▸ hws c
    by_cases hb₁ : b₁ = byte '<'
    · cases c₁ with
      | nil => exact ⟨false, [], by simp [hb₁], List.nil_suffix⟩
      | cons b₂ c₂ =>
        have h₂ : b₂ :: c₂ <:+ c := (List.suffix_cons b₁ _).trans h₁
        by_cases hb₂ : b₂ = byte '/'
        · have h₃ : c₂ <:+ c := (List.suffix_cons b₂ _).trans h₂
          cases hp : name.isPrefixOf c₂ with
          | false => exact ⟨false, c₂, by simp [hb₁, hb₂, hp], h₃⟩
          | true =>
            obtain ⟨c₃, rfl⟩ := List.isPrefixOf_iff_prefix.mp hp
            have h₄ : c₃.dropWhile isWs <:+ c :=
              ((hws c₃).trans (List.suffix_append _ _)).trans h₃
            cases hc₃ : c₃.dropWhile isWs with
            | nil => exact ⟨false, [], by simp [hb₁, hb₂, hp, hc₃], List.nil_suffix⟩
            | cons b₄ c₄ =>
              rw [hc₃] at h₄
              by_cases hb₄ : b₄ = byte '>'
              · exact ⟨true, c₄, by simp [hb₁, hb₂, hp, hc₃, hb₄],
                  (List.suffix_cons b₄ _).trans h₄⟩
              · exact ⟨false, b₄ :: c₄, by simp [hb₁, hb₂, hp, hc₃, hb₄], h₄⟩
        · exact ⟨false, b₂ :: c₂, by simp [hb₁, hb₂], h₂⟩
    · exact ⟨false, b₁ :: c₁, by simp [hb₁], h₁⟩

/-! ## The parser -/

/-- The messages passed to `setError`. -/
inductive ReadError where
  | expectedKeyOrEnd
  | expectedKeyInside
  | unterminatedKey
  | unterminatedDict
  | unterminatedArray
  | expectedValue
  | unterminatedString
  | unterminatedInteger
  | unterminatedReal
  | unterminatedData
  | unrecognizedElement
  | missingPlist
  | expectedPlist
  | unterminatedPlist
  deriving DecidableEq

/-- `CFPropertyListMutabilityOptions`. -/
inductive MutabilityOptions where
  | immutable
  | mutableContainers
  | mutableContainersAndLeaves
  deriving DecidableEq

/-- A run of the reader: where it stands, and the messages set so far, oldest first. -/
structure ReadState where
  cursor : Cursor
  errors : List ReadError

/-- The outcome of a parsing function: `none` is `NULL`. -/
abbrev Parsed (δ : Type) := Option (CFObject δ) × ReadState

variable {δ : Type}

/-- `setError(errorString, msg); return NULL;` -/
def setError (st : ReadState) (msg : ReadError) : Except Fault (Parsed δ) :=
  .ok (none, { st with errors := st.errors ++ [msg] })

/-- `CFDictionaryCreateCopy`: the same keys and values in the same order. -/
def cfDictionaryCreateCopy (d : Entries δ) : Entries δ := d

/-- `b64Decode`, which skips whatever is not in the alphabet. -/
def b64Decode (text : List UInt8) : List UInt8 := Base64.decode text

/-- A text element: the text up to the close tag, handed to `make`. -/
def textElement (name : List UInt8) (msg : ReadError) (make : List UInt8 → CFObject δ)
    (st : ReadState) : Except Fault (Parsed δ) := do
  let (text, c) ← readText st.cursor
  let (closed, c) ← expectCloseTag c name
  if closed then .ok (some (make text), { st with cursor := c })
  else setError { st with cursor := c } msg

section Parser

variable (strtod : CString → δ) (mutability : MutabilityOptions)

mutual
/-- `parseValue`. -/
def parseValue : ℕ → ReadState → Except Fault (Parsed δ)
  | 0, _ => .error .outOfFuel
  | fuel + 1, st => do
    let c ← skipWs st.cursor
    if !(← atByte c (byte '<')) then setError { st with cursor := c } .expectedValue
    else do
      let c ← advance c 1
      let (tag, _, c) ← readTagName c
      let st := { st with cursor := c }
      if tag.bytes = ascii "dict" then parseDict fuel [] st
      else if tag.bytes = ascii "array" then parseArray fuel [] st
      else if tag.bytes = ascii "true" then .ok (some (.boolean true), st)
      else if tag.bytes = ascii "false" then .ok (some (.boolean false), st)
      else if tag.bytes = ascii "string" then
        textElement (ascii "string") .unterminatedString .string st
      else if tag.bytes = ascii "integer" then
        textElement (ascii "integer") .unterminatedInteger
          (fun text => .integer (strtol (CString.ofBytes text) 10).1) st
      else if tag.bytes = ascii "real" then
        textElement (ascii "real") .unterminatedReal
          (fun text => .real (strtod (CString.ofBytes text))) st
      else if tag.bytes = ascii "data" then
        textElement (ascii "data") .unterminatedData (fun text => .data (b64Decode text)) st
      else setError st .unrecognizedElement

/-- The loop of `parseDict`, with the entries read so far. -/
def parseDict : ℕ → Entries δ → ReadState → Except Fault (Parsed δ)
  | 0, _, _ => .error .outOfFuel
  | fuel + 1, d, st => do
    let c ← skipWs st.cursor
    if ← closeTagAhead c then do
      let (closed, c) ← expectCloseTag c (ascii "dict")
      if !closed then setError { st with cursor := c } .unterminatedDict
      else if mutability = .immutable then
        .ok (some (.dictionary (cfDictionaryCreateCopy d)), { st with cursor := c })
      else .ok (some (.dictionary d), { st with cursor := c })
    else if !(← atByte c (byte '<')) then setError { st with cursor := c } .expectedKeyOrEnd
    else do
      let c ← advance c 1
      let (tag, _, c) ← readTagName c
      if tag.bytes ≠ ascii "key" then setError { st with cursor := c } .expectedKeyInside
      else do
        let (keyText, c) ← readText c
        let (closed, c) ← expectCloseTag c (ascii "key")
        if !closed then setError { st with cursor := c } .unterminatedKey
        else do
          let (val, st) ← parseValue fuel { st with cursor := c }
          match val with
          | none => .ok (none, st)
          | some val => parseDict fuel (cfDictionarySetValue d keyText val) st

/-- The loop of `parseArray`, with the values read so far. -/
def parseArray : ℕ → List (CFObject δ) → ReadState → Except Fault (Parsed δ)
  | 0, _, _ => .error .outOfFuel
  | fuel + 1, a, st => do
    let c ← skipWs st.cursor
    if ← closeTagAhead c then do
      let (closed, c) ← expectCloseTag c (ascii "array")
      if !closed then setError { st with cursor := c } .unterminatedArray
      else .ok (some (.array a), { st with cursor := c })
    else do
      let (val, st) ← parseValue fuel { st with cursor := c }
      match val with
      | none => .ok (none, st)
      | some val => parseArray fuel (a ++ [val]) st
end

/-- `CFPropertyListCreateFromXMLData` with the given fuel. -/
def readDocument (fuel : ℕ) (xmlData : List UInt8) : Except Fault (Parsed δ) := do
  let c ← skipProlog fuel xmlData
  let c ← skipWs c
  let st : ReadState := ⟨c, []⟩
  if !(← atByte c (byte '<')) then setError st .missingPlist
  else do
    let c ← advance c 1
    let (tag, _, c) ← readTagName c
    if tag.bytes ≠ ascii "plist" then setError { st with cursor := c } .expectedPlist
    else do
      let (result, st) ← parseValue strtod mutability fuel { st with cursor := c }
      match result with
      | none => .ok (none, st)
      | some result => do
        let (closed, c) ← expectCloseTag st.cursor (ascii "plist")
        if !closed then setError { st with cursor := c } .unterminatedPlist
        else .ok (some result, { st with cursor := c })

/-- Enough fuel for a document of the given length. -/
def readFuel (length : ℕ) : ℕ := 2 * length + 2

/-- `CFPropertyListCreateFromXMLData`. -/
def cfPropertyListCreateFromXMLData (xmlData : List UInt8) : Except Fault (Parsed δ) :=
  readDocument strtod mutability (readFuel xmlData.length) xmlData

end Parser

end Asteros.CoreFoundation
