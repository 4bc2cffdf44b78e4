import Asteros.Foundation.Json.Safety
import Asteros.Foundation.Json.Writer
import Asteros.Foundation.PropertyListRoundTrip

set_option autoImplicit false

/-!
# The JSON round trip

What the writer produces for a graph is the text of a readable tree whose value is the graph, so
the reader gives the graph back.

## Main definitions

* `IsJson` — the graphs that have a JSON form.
* `Foundation.Json.itemOf` — how the writer spells a character.

## Main results

* `Foundation.Json.appendJSONEscapedString_eq` — a string is escaped without a fault.
* `Foundation.Json.jsonRoundTrip` — what is written is read back.
-/

namespace Asteros.CoreFoundation.CFObject

variable {δ : Type}

/-- The object belongs to the types that have a JSON form: strings without a NUL, and dictionaries
whose keys are such strings and pairwise distinct. -/
def JsonAt : CFObject δ → Prop
  | .real _ => False
  | .data _ => False
  | .date _ => False
  | .string bs => 0 ∉ bs
  | .dictionary es => (keys es).Nodup ∧ ∀ k ∈ keys es, 0 ∉ k
  | _ => True

/-- A graph of nulls, booleans, integers, NUL-free strings, arrays and dictionaries with pairwise
distinct keys. -/
def IsJson : CFObject δ → Prop := Everywhere JsonAt

end Asteros.CoreFoundation.CFObject

namespace Asteros.Foundation.Json

open Asteros.Libc Asteros.CoreFoundation Asteros.Foundation.Json.Tree

variable {δ : Type} (lib : Library δ)

/-! ## Strings -/

/-- How the writer spells a character. -/
def itemOf (c : UInt8) : Item :=
  if c = byte '"' then .escape (byte '"')
  else if c = byte '\\' then .escape (byte '\\')
  else if c = byte '\n' then .escape (byte 'n')
  else if c = byte '\r' then .escape (byte 'r')
  else if c = byte '\t' then .escape (byte 't')
  else if c < 0x20 then .unicode (byte '0') (byte '0') (lowerDigit (c.toNat / 16))
    (lowerDigit (c.toNat % 16))
  else .char c

/-- The control characters through `snprintf`. -/
private lemma vformat_unicode : ∀ c : Fin 32,
    (vformat 7 unicodeFormat [.word (BitVec.ofNat 64 c)]).map (fun o => (o.stored, o.total)) =
      some ((Item.unicode (byte '0') (byte '0') (lowerDigit (c / 16)) (lowerDigit (c % 16))).bytes,
        6) := by
  decide +kernel

/-- The control characters as they are read. -/
private lemma encodeCodePoint_lowerDigit : ∀ c : Fin 32,
    encodeCodePoint (codePoint [byte '0', byte '0', lowerDigit (c / 16), lowerDigit (c % 16)]) =
      [UInt8.ofNat c] := by
  decide +kernel

/-- A character is read as it was before it was spelled. -/
lemma stored_itemOf (c : UInt8) : (itemOf c).stored = [c] := by
  unfold itemOf
  split_ifs with h₁ h₂ h₃ h₄ h₅ h₆
  · rw [h₁]; rfl
  · rw [h₂]; rfl
  · rw [h₃]; rfl
  · rw [h₄]; rfl
  · rw [h₅]; rfl
  · have hlt : c.toNat < 32 := h₆
    have h := encodeCodePoint_lowerDigit ⟨c.toNat, hlt⟩
    rw [Item.stored]
    simpa using h
  · rfl

/-- A character other than NUL is spelled as the reader has it. -/
lemma wellFormed_itemOf {c : UInt8} (h0 : c ≠ 0) : (itemOf c).WellFormed := by
  unfold itemOf
  split_ifs with h₁ h₂ h₃ h₄ h₅ h₆
  · exact (by decide : byte '"' ≠ byte 'u')
  · exact (by decide : byte '\\' ≠ byte 'u')
  · exact (by decide : byte 'n' ≠ byte 'u')
  · exact (by decide : byte 'r' ≠ byte 'u')
  · exact (by decide : byte 't' ≠ byte 'u')
  · exact trivial
  · exact ⟨h0, h₁, h₂⟩

/-- A character takes at most six bytes. -/
lemma length_bytes_le (i : Item) : i.bytes.length ≤ 6 := by
  cases i <;> simp [Item.bytes]

/-- A character is put out as it is spelled, with room for a seventh byte: the terminator that
`snprintf` adds. -/
lemma escapeChar_eq (c : UInt8) {o : Output} (h : o.stored.length + 7 ≤ o.cap) :
    escapeChar c o = .ok ⟨o.stored ++ (itemOf c).bytes, o.cap⟩ := by
  unfold escapeChar itemOf
  split_ifs with h₁ h₂ h₃ h₄ h₅ h₆
  · exact putAll_eq (show o.stored.length + 2 ≤ o.cap by omega)
  · exact putAll_eq (show o.stored.length + 2 ≤ o.cap by omega)
  · exact putAll_eq (show o.stored.length + 2 ≤ o.cap by omega)
  · exact putAll_eq (show o.stored.length + 2 ≤ o.cap by omega)
  · exact putAll_eq (show o.stored.length + 2 ≤ o.cap by omega)
  · have hlt : c.toNat < 32 := h₆
    have hformat := vformat_unicode ⟨c.toNat, hlt⟩
    obtain ⟨sink, hsink, hfields⟩ := Option.map_eq_some_iff.mp hformat
    obtain ⟨hstored, htotal⟩ := Prod.mk.inj hfields
    rw [Output.snprintf]
    simp only [hsink, hstored, htotal]
    exact if_pos ⟨by decide, by omega⟩
  · exact if_pos (show o.stored.length < o.cap by omega)

/-- The loop puts out the characters as they are spelled. -/
lemma escapeLoop_eq {s : List UInt8} {o : Output}
    (h : o.stored.length + 6 * s.length + 1 ≤ o.cap) :
    escapeLoop s o = .ok ⟨o.stored ++ bodyBytes (s.map itemOf), o.cap⟩ := by
  induction s generalizing o with
  | nil => rw [escapeLoop, List.map_nil, bodyBytes, List.flatMap_nil, List.append_nil]
  | cons c s ih =>
    rw [List.length_cons] at h
    have hle := length_bytes_le (itemOf c)
    have hrest := ih (o := ⟨o.stored ++ (itemOf c).bytes, o.cap⟩)
      (show (o.stored ++ (itemOf c).bytes).length + 6 * s.length + 1 ≤ o.cap by
        rw [List.length_append]
        omega)
    rw [escapeLoop, escapeChar_eq c (by omega), ok_bind, hrest, List.append_assoc]
    rfl

/-- The text of some characters has at most six bytes for each. -/
lemma length_bodyBytes_le (items : List Item) : (bodyBytes items).length ≤ 6 * items.length := by
  induction items with
  | nil => exact Nat.le_refl 0
  | cons i items ih =>
    have hle := length_bytes_le i
    rw [bodyBytes, List.flatMap_cons, List.length_append, ← bodyBytes, List.length_cons]
    omega

/-- There is no NUL in the text of characters that have none. -/
lemma nulFree_bodyBytes {s : List UInt8} (hs : 0 ∉ s) : 0 ∉ bodyBytes (s.map itemOf) := by
  rw [bodyBytes, List.flatMap_map, List.mem_flatMap]
  rintro ⟨c, hc, hmem⟩
  have hc0 : c ≠ 0 := fun h => hs (h ▸ hc)
  have hdigit : ∀ d < 16, lowerDigit d ≠ 0 := by decide
  unfold itemOf at hmem
  split_ifs at hmem with h₁ h₂ h₃ h₄ h₅ h₆
  · exact absurd hmem (by decide)
  · exact absurd hmem (by decide)
  · exact absurd hmem (by decide)
  · exact absurd hmem (by decide)
  · exact absurd hmem (by decide)
  · have hlt : c.toNat < 32 := h₆
    simp only [Item.bytes, List.mem_cons, List.not_mem_nil, or_false] at hmem
    rcases hmem with h | h | h | h | h | h
    · exact absurd h (by decide)
    · exact absurd h (by decide)
    · exact absurd h (by decide)
    · exact absurd h (by decide)
    · exact hdigit (c.toNat / 16) (by omega) h.symm
    · exact hdigit (c.toNat % 16) (by omega) h.symm
  · exact hc0 (List.mem_singleton.mp hmem).symm

/-- There is no NUL in the text of such a string. -/
lemma nulFree_stringBytes {s : List UInt8} (hs : 0 ∉ s) : 0 ∉ stringBytes (s.map itemOf) := by
  have hquote : (0 : UInt8) ≠ byte '"' := by decide
  simp only [stringBytes, List.mem_cons, List.mem_append, List.not_mem_nil, or_false, hquote,
    false_or]
  exact nulFree_bodyBytes hs

/-- **A string is escaped without a fault**, in an array of six bytes for each character and three
more. -/
theorem appendJSONEscapedString_eq {s : List UInt8} (hs : 0 ∉ s) :
    appendJSONEscapedString s = .ok (stringBytes (s.map itemOf)) := by
  have hopen : Output.put ⟨[], s.length * 6 + 3⟩ (byte '"') =
      .ok ⟨[byte '"'], s.length * 6 + 3⟩ := if_pos (Nat.succ_pos _)
  have hbody := length_bodyBytes_le (s.map itemOf)
  rw [List.length_map] at hbody
  have hloop : escapeLoop s ⟨[byte '"'], s.length * 6 + 3⟩ =
      .ok ⟨[byte '"'] ++ bodyBytes (s.map itemOf), s.length * 6 + 3⟩ :=
    escapeLoop_eq (show 1 + 6 * s.length + 1 ≤ s.length * 6 + 3 by omega)
  have hclose : Output.put ⟨[byte '"'] ++ bodyBytes (s.map itemOf), s.length * 6 + 3⟩ (byte '"') =
      .ok ⟨stringBytes (s.map itemOf), s.length * 6 + 3⟩ :=
    if_pos (show (byte '"' :: bodyBytes (s.map itemOf)).length < s.length * 6 + 3 by
      rw [List.length_cons]
      omega)
  have hend : Output.put ⟨stringBytes (s.map itemOf), s.length * 6 + 3⟩ 0 =
      .ok ⟨stringBytes (s.map itemOf) ++ [0], s.length * 6 + 3⟩ :=
    if_pos (show (stringBytes (s.map itemOf)).length < s.length * 6 + 3 by
      rw [stringBytes, List.length_cons, List.length_append, List.length_singleton]
      omega)
  simp only [appendJSONEscapedString, CString.bytes_ofBytes_of_nulFree hs, hopen, hloop, hclose,
    hend, ok_bind, CString.bytes_ofBytes_terminated,
    CString.bytes_ofBytes_of_nulFree (nulFree_stringBytes hs)]

/-- The string that is read is the one that was escaped. -/
lemma stringValue_itemOf {s : List UInt8} (hs : 0 ∉ s) : stringValue (s.map itemOf) = s := by
  have hstored : (s.map itemOf).flatMap Item.stored = s := by
    rw [List.flatMap_map]
    simp only [stored_itemOf, List.flatMap_singleton']
  rw [stringValue, hstored, initWithUTF8String, CString.bytes_ofBytes_of_nulFree hs]

/-- The characters of a NUL-free string are well formed. -/
lemma wellFormed_map_itemOf {s : List UInt8} (hs : 0 ∉ s) :
    ∀ i ∈ s.map itemOf, i.WellFormed := by
  intro i hi
  obtain ⟨c, hc, rfl⟩ := List.mem_map.mp hi
  exact wellFormed_itemOf fun h => hs (h ▸ hc)

/-! ## Numbers -/

/-- How an integer is written. -/
def numberOf (v : BitVec 64) : Number where
  minus := v.slt 0
  int := (numbuf digitChar 10 (if v.slt 0 then -v else v).toNat).reverse
  frac := none
  exp := none

/-- It is written in decimal. -/
lemma bytes_numberOf (v : BitVec 64) : (numberOf v).bytes = decimal v := by
  unfold decimal
  cases hneg : v.slt 0 with
  | true =>
    have hnumber : numberOf v = ⟨true, (numbuf digitChar 10 (-v).toNat).reverse, none, none⟩ := by
      rw [numberOf, hneg]
      rfl
    rw [hnumber, Number.bytes, Number.fracBytes, Number.expBytes]
    simp
  | false =>
    have hnumber : numberOf v = ⟨false, (numbuf digitChar 10 v.toNat).reverse, none, none⟩ := by
      rw [numberOf, hneg]
      rfl
    rw [hnumber, Number.bytes, Number.fracBytes, Number.expBytes]
    simp

/-- It is a number that the reader takes. -/
lemma wellFormed_numberOf (v : BitVec 64) : (numberOf v).WellFormed where
  int b hb := isdigit_of_mem_numbuf (List.mem_reverse.mp hb)
  start := by
    obtain ⟨d, p, -, hdigits⟩ := exists_digit_numbuf (if v.slt 0 then -v else v).toNat
    refine Or.inr ?_
    rw [numberOf, hdigits]
    exact List.cons_ne_nil _ _
  frac digits h := absurd h (Option.not_mem_none digits)
  exp e h := absurd h (Option.not_mem_none e)

/-- It is short enough. -/
lemma short_numberOf (v : BitVec 64) : (numberOf v).Short := by
  rw [Number.Short, bytes_numberOf]
  exact lt_of_le_of_lt (length_decimal_le v) (by decide)

/-- It is read as the integer. -/
lemma value_numberOf (v : BitVec 64) : (numberOf v).value lib = .integer v := by
  have hbytes : (CString.ofBytes (numberOf v).bytes).bytes = decimal v := by
    rw [bytes_numberOf, CString.bytes_ofBytes_of_nulFree (decimal_nulFree v)]
  have hreal : ((numberOf v).frac.isSome || (numberOf v).exp.isSome) = false := rfl
  rw [Number.value, hreal, if_neg Bool.false_ne_true, strtol_decimal hbytes]

/-! ## Values -/

/-- What the round trip of a value rests on: it is written as the text of a readable value that
is read as the object. -/
def Written (o : CFObject δ) (text : List UInt8) : Prop :=
  0 ∉ text ∧ ∃ t : Tree, Follows readable t ∧ t.bytes = text ∧ t.value lib = o

/-- No whitespace. -/
lemma blank_nil : Blank [] := fun _ h => absurd h List.not_mem_nil

/-- The values of an array, with commas between them. -/
lemma exists_elements {x : CFObject δ} {xs : List (CFObject δ)} {text : List UInt8}
    {texts : List (List UInt8)} (h : List.Forall₂ (Written lib) (x :: xs) (text :: texts)) :
    ∃ done last, ElementsFollow readable done ∧ Follows readable last ∧
      elementsBytes done ++ last.bytes = List.intercalate (ascii ",") (text :: texts) ∧
      elementValues lib done ++ [last.value lib] = x :: xs := by
  induction xs generalizing x text texts with
  | nil =>
    obtain ⟨⟨-, t, ht, hbytes, hvalue⟩, hnil⟩ := List.forall₂_cons.mp h
    rw [List.forall₂_nil_left_iff] at hnil
    refine ⟨[], t, trivial, ht, ?_, ?_⟩
    · simp [elementsBytes, hbytes, hnil, List.intercalate]
    · simp [elementValues, hvalue]
  | cons y xs ih =>
    obtain ⟨⟨-, t, ht, hbytes, hvalue⟩, hrest⟩ := List.forall₂_cons.mp h
    obtain ⟨text', texts', -, -, rfl⟩ := List.forall₂_cons_left_iff.mp hrest
    obtain ⟨done, last, hdone, hlast, hcat, hvalues⟩ := ih hrest
    refine ⟨([], t, []) :: done, last, ⟨⟨blank_nil, ht, blank_nil⟩, hdone⟩, hlast, ?_, ?_⟩
    · rw [elementsBytes, hbytes, List.intercalate_cons_cons, ← hcat]
      simp [ascii, byte]
    · rw [elementValues, hvalue, List.cons_append, hvalues]

/-- What is written for an entry of a dictionary. -/
def memberText (e : List UInt8 × List UInt8) : List UInt8 :=
  stringBytes (e.1.map itemOf) ++ (byte ':' :: e.2)

/-- The key of an entry, as it is written. -/
def keyOf (k : List UInt8) : Key := ⟨[], k.map itemOf, [], []⟩

/-- The key is one that the reader takes. -/
lemma ofKey_keyOf {k : List UInt8} (hk : 0 ∉ k) : readable.OfKey (keyOf k) :=
  ⟨blank_nil, wellFormed_map_itemOf hk, blank_nil, blank_nil⟩

/-- The text of the entry is that of the key and that of the value. -/
lemma bytes_keyOf (e : List UInt8 × List UInt8) :
    (keyOf e.1).bytes ++ e.2 = memberText e := by
  simp [Key.bytes, keyOf, memberText]

/-- The entries of a dictionary, with commas between them. -/
lemma exists_members {e : List UInt8 × CFObject δ} {es acc : Entries δ}
    {t : List UInt8 × List UInt8} {ts : List (List UInt8 × List UInt8)}
    (h : List.Forall₂ (fun e t => t.1 = e.1 ∧ Written lib e.2 t.2) (e :: es) (t :: ts))
    (hnodup : (keys (acc ++ e :: es)).Nodup) (hnul : ∀ k ∈ keys (e :: es), 0 ∉ k) :
    ∃ done key last, MembersFollow readable done ∧ readable.OfKey key ∧ Follows readable last ∧
      membersBytes done ++ (key.bytes ++ last.bytes) =
        List.intercalate (ascii ",") ((t :: ts).map memberText) ∧
      cfDictionarySetValue (storeMembers lib acc done) (stringValue key.name) (last.value lib) =
        acc ++ e :: es := by
  induction es generalizing e acc t ts with
  | nil =>
    obtain ⟨⟨hkey, -, tree, htree, hbytes, hvalue⟩, hnil⟩ := List.forall₂_cons.mp h
    rw [List.forall₂_nil_left_iff] at hnil
    have hk : 0 ∉ e.1 := hnul e.1 List.mem_cons_self
    have hnew : e.1 ∉ keys acc := fun hmem => by
      rw [keys, List.map_append] at hnodup
      exact (List.nodup_append.mp hnodup).2.2 _ hmem _ List.mem_cons_self rfl
    refine ⟨[], keyOf e.1, tree, trivial, ofKey_keyOf hk, htree, ?_, ?_⟩
    · rw [hnil, List.map_singleton, List.intercalate_singleton, ← bytes_keyOf, hbytes, hkey]
      rfl
    · have hname : stringValue (keyOf e.1).name = e.1 := stringValue_itemOf hk
      rw [storeMembers, hname, hvalue, setValue_of_notMem hnew]
  | cons f es ih =>
    obtain ⟨⟨hkey, -, tree, htree, hbytes, hvalue⟩, hrest⟩ := List.forall₂_cons.mp h
    obtain ⟨t', ts', -, -, rfl⟩ := List.forall₂_cons_left_iff.mp hrest
    have hk : 0 ∉ e.1 := hnul e.1 List.mem_cons_self
    have hnew : e.1 ∉ keys acc := fun hmem => by
      rw [keys, List.map_append] at hnodup
      exact (List.nodup_append.mp hnodup).2.2 _ hmem _ List.mem_cons_self rfl
    have hassoc : (acc ++ [e]) ++ f :: es = acc ++ e :: f :: es := by simp
    obtain ⟨done, key, last, hdone, hlastKey, hlast, hcat, hstore⟩ :=
      @ih _ (acc ++ [e]) _ _ hrest (by rw [hassoc]; exact hnodup)
        fun k hmem => hnul k (List.mem_cons_of_mem _ hmem)
    have hname : stringValue (keyOf e.1).name = e.1 := stringValue_itemOf hk
    refine ⟨(keyOf e.1, tree, []) :: done, key, last,
      ⟨⟨ofKey_keyOf hk, htree, blank_nil⟩, hdone⟩, hlastKey, hlast, ?_, ?_⟩
    · rw [membersBytes, List.map_cons, List.map_cons, List.intercalate_cons_cons,
        ← List.map_cons (f := memberText), ← hcat, ← bytes_keyOf, hbytes, hkey]
      simp [ascii, byte]
    · rw [storeMembers, hname, hvalue, setValue_of_notMem hnew, hstore, hassoc]

/-- There is no NUL in texts with commas between them. -/
lemma nulFree_intercalate {texts : List (List UInt8)} (h : ∀ text ∈ texts, 0 ∉ text) :
    0 ∉ List.intercalate (ascii ",") texts := by
  induction texts with
  | nil => exact List.not_mem_nil
  | cons text texts ih =>
    have ih' := ih fun t ht => h t (List.mem_cons_of_mem _ ht)
    have htext := h text List.mem_cons_self
    cases texts with
    | nil => rwa [List.intercalate_singleton]
    | cons text' texts =>
      rw [List.intercalate_cons_cons, List.mem_append, List.mem_append]
      rintro ((hmem | hmem) | hmem)
      · exact htext hmem
      · exact absurd hmem (by decide)
      · exact ih' hmem

/-- Whatever is in the second of two lists that correspond has a counterpart in the first. -/
private lemma exists_counterpart {α β : Type} {R : α → β → Prop} {xs : List α} {ys : List β}
    (h : List.Forall₂ R xs ys) {y : β} (hy : y ∈ ys) : ∃ x ∈ xs, R x y := by
  induction h with
  | nil => exact absurd hy List.not_mem_nil
  | cons hhead _ ih =>
    rcases List.mem_cons.mp hy with rfl | hy
    · exact ⟨_, List.mem_cons_self, hhead⟩
    · obtain ⟨x, hx, hR⟩ := ih hy
      exact ⟨x, List.mem_cons_of_mem _ hx, hR⟩

/-- The loop over the values of an array writes each of them. -/
private lemma exists_values {xs : List (CFObject δ)}
    (h : ∀ x ∈ xs, ∃ text, writeJSONValue lib x = .ok text ∧ Written lib x text) :
    ∃ texts, writeJSONValues lib xs = .ok texts ∧ List.Forall₂ (Written lib) xs texts := by
  induction xs with
  | nil => exact ⟨[], rfl, List.Forall₂.nil⟩
  | cons x xs ih =>
    obtain ⟨text, htext, hx⟩ := h x List.mem_cons_self
    obtain ⟨texts, htexts, hxs⟩ := ih fun y hy => h y (List.mem_cons_of_mem _ hy)
    refine ⟨text :: texts, ?_, List.Forall₂.cons hx hxs⟩
    rw [writeJSONValues, htext, ok_bind, htexts, ok_bind]

/-- The loop over the entries of a dictionary writes the value of each. -/
private lemma exists_each {es : Entries δ}
    (h : ∀ e ∈ es, ∃ text, writeJSONValue lib e.2 = .ok text ∧ Written lib e.2 text) :
    ∃ texts, writeJSONEach lib es = .ok texts ∧
      List.Forall₂ (fun e t => t.1 = e.1 ∧ Written lib e.2 t.2) es texts := by
  induction es with
  | nil => exact ⟨[], rfl, List.Forall₂.nil⟩
  | cons e es ih =>
    obtain ⟨text, htext, he⟩ := h e List.mem_cons_self
    obtain ⟨texts, htexts, hes⟩ := ih fun f hf => h f (List.mem_cons_of_mem _ hf)
    obtain ⟨k, v⟩ := e
    refine ⟨(k, text) :: texts, ?_, List.Forall₂.cons ⟨rfl, he⟩ hes⟩
    rw [writeJSONEach, htext, ok_bind, htexts, ok_bind]

/-- The loop over the keys of a dictionary writes every entry. -/
private lemma writeJSONMembers_eq {texts : List (List UInt8 × List UInt8)}
    (hnodup : (texts.map Prod.fst).Nodup) (hnul : ∀ e ∈ texts, 0 ∉ e.1)
    {sub : List (List UInt8 × List UInt8)} (hsub : ∀ e ∈ sub, e ∈ texts) :
    writeJSONMembers texts (sub.map Prod.fst) = .ok (sub.map memberText) := by
  induction sub with
  | nil => rfl
  | cons e sub ih =>
    have he := hsub e List.mem_cons_self
    rw [List.map_cons, writeJSONMembers, appendJSONEscapedString_eq (hnul e he), ok_bind,
      ih fun f hf => hsub f (List.mem_cons_of_mem _ hf), ok_bind, textForKey_of_mem hnodup he]
    rfl

/-- The texts carry the keys. -/
private lemma map_fst_of_forall₂ {es : Entries δ} {texts : List (List UInt8 × List UInt8)}
    (h : List.Forall₂ (fun e t => t.1 = e.1 ∧ Written lib e.2 t.2) es texts) :
    texts.map Prod.fst = keys es := by
  induction h with
  | nil => rfl
  | cons hhead _ ih =>
    rw [List.map_cons, ih, hhead.1]
    rfl

/-- **The writer puts out the text of a readable value** that is read as the object.

**Proof sketch.** Induction over the graph. A control character goes through `snprintf`, for which
six bytes of every character leave room; the members of a dictionary are those of its entries
because its keys are distinct. -/
theorem exists_written {o : CFObject δ} (ho : o.IsJson) :
    ∃ text, writeJSONValue lib o = .ok text ∧ Written lib o text := by
  refine CFObject.everywhere_induction (P := fun o =>
    ∃ text, writeJSONValue lib o = .ok text ∧ Written lib o text)
    ?null ?boolean ?integer ?real ?string ?data ?date ?array ?dictionary ho
  case null => exact fun _ => ⟨_, rfl, by decide, Tree.null, trivial, rfl, rfl⟩
  case boolean =>
    intro b _
    exact ⟨_, rfl, by cases b <;> decide, Tree.boolean b, trivial, rfl, rfl⟩
  case integer =>
    intro v _
    have hformat : longFormat.bytes = [] ++ byte '%' :: (ascii "ld" ++ []) := by decide
    refine ⟨decimal v, ?_, decimal_nulFree v, Tree.number (numberOf v),
      ⟨wellFormed_numberOf v, short_numberOf v⟩, bytes_numberOf v, value_numberOf lib v⟩
    rw [writeJSONValue, format_integer List.not_mem_nil List.not_mem_nil hformat,
      List.nil_append, List.append_nil]
  case real => exact fun _ h => h.elim
  case string =>
    intro s hs
    refine ⟨_, appendJSONEscapedString_eq hs, nulFree_stringBytes hs,
      Tree.string (s.map itemOf), wellFormed_map_itemOf hs, rfl, ?_⟩
    rw [Tree.value, stringValue_itemOf hs]
  case data => exact fun _ h => h.elim
  case date => exact fun _ h => h.elim
  case array =>
    intro xs _ ih
    obtain ⟨texts, htexts, hwritten⟩ := exists_values lib ih
    refine ⟨byte '[' :: (List.intercalate (ascii ",") texts ++ ascii "]"), ?_, ?_, ?_⟩
    · rw [writeJSONValue, htexts, ok_bind]
    · have hnul : 0 ∉ List.intercalate (ascii ",") texts := nulFree_intercalate fun text htext => by
        obtain ⟨x, -, hx⟩ := exists_counterpart hwritten htext
        exact hx.1
      simp only [List.mem_cons, List.mem_append, hnul, false_or]
      decide
    · cases hwritten with
      | nil => exact ⟨Tree.emptyArray [], blank_nil, rfl, rfl⟩
      | cons hx hxs =>
        obtain ⟨done, last, hdone, hlast, hcat, hvalues⟩ :=
          exists_elements lib (List.Forall₂.cons hx hxs)
        refine ⟨Tree.array done [] last [], ⟨hdone, blank_nil, hlast, blank_nil⟩, ?_, ?_⟩
        · rw [Tree.bytes, ← hcat]
          simp [ascii, byte]
        · rw [Tree.value, hvalues]
  case dictionary =>
    intro es hes ih
    obtain ⟨texts, htexts, hwritten⟩ := exists_each lib ih
    have hkeys := map_fst_of_forall₂ lib hwritten
    have hnul : ∀ e ∈ texts, 0 ∉ e.1 := fun e he =>
      hes.2 e.1 (hkeys ▸ List.mem_map_of_mem he)
    have hmembers := writeJSONMembers_eq (hkeys ▸ hes.1) hnul fun e he => he
    rw [hkeys] at hmembers
    refine ⟨byte '{' :: (List.intercalate (ascii ",") (texts.map memberText) ++ ascii "\x7d"),
      ?_, ?_, ?_⟩
    · rw [writeJSONValue, htexts, ok_bind, hmembers, ok_bind]
    · have hfree : 0 ∉ List.intercalate (ascii ",") (texts.map memberText) :=
          nulFree_intercalate fun text htext => by
        obtain ⟨e, he, rfl⟩ := List.mem_map.mp htext
        obtain ⟨x, -, hx⟩ := exists_counterpart hwritten he
        have hcolon : (0 : UInt8) ≠ byte ':' := by decide
        simp only [memberText, List.mem_append, List.mem_cons, hcolon, false_or, not_or]
        exact ⟨nulFree_stringBytes (hnul e he), hx.2.1⟩
      simp only [List.mem_cons, List.mem_append, hfree, false_or]
      decide
    · cases hwritten with
      | nil => exact ⟨Tree.emptyObject [], blank_nil, rfl, rfl⟩
      | cons he hrest =>
        obtain ⟨done, key, last, hdone, hkey, hlast, hcat, hstore⟩ :=
          @exists_members δ lib _ _ [] _ _ (List.Forall₂.cons he hrest)
            (by rw [List.nil_append]; exact hes.1) hes.2
        refine ⟨Tree.object done key last [], ⟨hdone, hkey, hlast, blank_nil⟩, ?_, ?_⟩
        · rw [Tree.bytes, ← hcat]
          simp [ascii, byte]
        · rw [Tree.value, hstore, List.nil_append]

/-! ## Whole documents -/

/-- **What the writer writes, the reader reads back**, for every graph with an array or a
dictionary at its root. -/
theorem jsonRoundTrip {o : CFObject δ} (ho : o.IsJson) (hroot : isValidJSONObject o = true) :
    ∃ data, dataWithJSONObject lib o = .ok (some data) ∧
      jsonObjectWithData lib data = .ok (some o) := by
  obtain ⟨text, htext, hnul, t, ht, hbytes, hvalue⟩ := exists_written lib ho
  have hcontainer : t.IsContainer := by
    rw [← hvalue] at hroot
    cases t with
    | null => cases hroot
    | boolean b => cases hroot
    | number n =>
      rw [Tree.value, Number.value] at hroot
      split_ifs at hroot <;> cases hroot
    | string items => cases hroot
    | _ => trivial
  obtain ⟨b, s, hcons, hb⟩ : ∃ b s, text = b :: s ∧ b < 0x80 := by
    rw [← hbytes]
    cases t with
    | emptyArray blank => exact ⟨_, _, rfl, by decide⟩
    | array done lead last trail => exact ⟨_, _, rfl, by decide⟩
    | emptyObject blank => exact ⟨_, _, rfl, by decide⟩
    | object done k last trail => exact ⟨_, _, rfl, by decide⟩
    | _ => exact hcontainer.elim
  have hexport : dataUsingEncoding text = .ok text := by
    rw [hcons] at hnul ⊢
    exact dataUsingEncoding_of_ascii hb hnul
  have hread := @jsonObjectWithData_tree _ lib [] blank_nil _ ht hcontainer []
  rw [List.append_nil, List.nil_append, hbytes, hvalue] at hread
  refine ⟨text, ?_, hread⟩
  rw [dataWithJSONObject, hroot]
  simp only [Bool.not_true, Bool.false_eq_true, if_false, htext, ok_bind, hexport]

/-- An array of a null, an integer, a string with a quote and a control character in it, and a
dictionary. -/
theorem jsonRoundTrip_nested :
    let o : CFObject Unit := .array [.null, .integer (-7), .string [byte '"', 1],
      .dictionary [(ascii "a", .boolean true), (ascii "b", .array [])]]
    ∃ data, dataWithJSONObject noReals o = .ok (some data) ∧
      jsonObjectWithData noReals data = .ok (some o) :=
  jsonRoundTrip noReals (by
    simp [CFObject.IsJson, CFObject.Everywhere, CFObject.EverywhereValues,
      CFObject.EverywhereEntries, CFObject.JsonAt, keys, ascii, byte]) rfl

end Asteros.Foundation.Json
