import Mathlib.Data.List.Basic

set_option autoImplicit false

/-!
# UTF-8

The encoding of a character sequence, and what can be told from its bytes alone. The first byte of a
character is of a kind that no other byte of a character is, so a place between two characters can be
told by the byte behind it, and a search for bytes finds characters.

## Main definitions

* `encode` — the bytes of a character sequence.
* `Valid` — bytes that are those of a character sequence.

## Main results

* `encode_prefix` — a character sequence starts with another one if its bytes do.
* `exists_boundary` — a place in the bytes where a character starts is one between characters.
* `exists_of_encode_prefix_drop` — bytes of characters that are found are those characters.
-/

namespace Utf8

/-- The bytes of a character sequence. -/
def encode (cs : List Char) : List UInt8 := cs.flatMap String.utf8EncodeChar

/-- The bytes are those of a character sequence. -/
def Valid (bs : List UInt8) : Prop := ∃ cs, bs = encode cs

variable {cs ds : List Char} {c d : Char} {bs : List UInt8} {n : ℕ}

/-! ## Encoding -/

/-- No character has no bytes. -/
@[simp] lemma encode_nil : encode [] = [] := rfl

/-- One character is encoded after the other. -/
@[simp] lemma encode_cons (c : Char) (cs : List Char) :
    encode (c :: cs) = String.utf8EncodeChar c ++ encode cs := List.flatMap_cons

/-- Two sequences are encoded one after the other. -/
@[simp] lemma encode_append (cs ds : List Char) : encode (cs ++ ds) = encode cs ++ encode ds :=
  List.flatMap_append

/-- A character has a first byte. -/
lemma exists_encodeChar (c : Char) : ∃ b bs, String.utf8EncodeChar c = b :: bs :=
  List.exists_cons_of_ne_nil String.utf8EncodeChar_ne_nil

/-- A character has at least one byte. -/
lemma encodeChar_pos (c : Char) : 0 < (String.utf8EncodeChar c).length := by
  obtain ⟨b, bs, h⟩ := exists_encodeChar c
  rw [h]
  exact Nat.succ_pos _

/-- There are at least as many bytes as characters. -/
lemma length_le_encode (cs : List Char) : cs.length ≤ (encode cs).length := by
  induction cs with
  | nil => exact Nat.zero_le _
  | cons c cs ih =>
    have hpos := encodeChar_pos c
    rw [encode_cons, List.length_append, List.length_cons]
    omega

/-- Only no characters have no bytes. -/
lemma encode_eq_nil_iff : encode cs = [] ↔ cs = [] := by
  refine ⟨fun h => ?_, fun h => by rw [h, encode_nil]⟩
  have hle := length_le_encode cs
  rw [h] at hle
  exact List.length_eq_zero_iff.mp (Nat.le_zero.mp hle)

/-! ## Decoding -/

/-- The first character can be told from the bytes, whatever comes behind it. -/
lemma encodeChar_append_inj {r s : List UInt8}
    (h : String.utf8EncodeChar c ++ r = String.utf8EncodeChar d ++ s) : c = d ∧ r = s := by
  have hdecode : ∀ (c : Char) (r : List UInt8),
      (String.utf8EncodeChar c ++ r).toByteArray.utf8DecodeChar? 0 = some c := by
    intro c r
    rw [List.toByteArray_append]
    exact ByteArray.utf8DecodeChar?_utf8EncodeChar_append
  have hcd : c = d := by
    have hc := hdecode c r
    rw [h, hdecode d s] at hc
    exact (Option.some.inj hc).symm
  subst hcd
  exact ⟨rfl, List.append_cancel_left h⟩

/-- **A sequence starts with another one if its bytes do.** -/
lemma encode_prefix (h : encode ds <+: encode cs) : ds <+: cs := by
  induction ds generalizing cs with
  | nil => exact List.nil_prefix
  | cons d ds ih =>
    obtain ⟨r, hr⟩ := h
    cases cs with
    | nil =>
      have hpos := encodeChar_pos d
      have hlen := congrArg List.length hr
      simp only [encode_cons, encode_nil, List.length_append, List.length_nil] at hlen
      omega
    | cons c cs =>
      rw [encode_cons, encode_cons, List.append_assoc] at hr
      obtain ⟨rfl, hrest⟩ := encodeChar_append_inj hr
      exact List.cons_prefix_cons.mpr ⟨rfl, ih ⟨r, hrest⟩⟩

/-! ## Places between characters -/

/-- **A place in the bytes where a byte is that starts a character is one between characters.** -/
lemma exists_boundary {b : UInt8} (hb : b.IsUTF8FirstByte) (h : (encode cs)[n]? = some b) :
    ∃ front back, cs = front ++ back ∧ (encode front).length = n := by
  induction cs generalizing n with
  | nil => cases h
  | cons c cs ih =>
    rw [encode_cons] at h
    by_cases hn : n < (String.utf8EncodeChar c).length
    · rw [List.getElem?_append_left hn, List.getElem?_eq_getElem hn] at h
      have hfirst := UInt8.isUTF8FirstByte_getElem_utf8EncodeChar.mp (Option.some.inj h ▸ hb)
      exact ⟨[], c :: cs, rfl, hfirst.symm⟩
    · rw [List.getElem?_append_right (by omega)] at h
      obtain ⟨front, back, rfl, hlen⟩ := ih h
      refine ⟨c :: front, back, rfl, ?_⟩
      rw [encode_cons, List.length_append, hlen]
      omega

/-- The first byte of some characters starts a character. -/
lemma isUTF8FirstByte_head {b : UInt8} (h : encode cs = b :: bs) : b.IsUTF8FirstByte := by
  cases cs with
  | nil => cases h
  | cons c cs =>
    have hpos := encodeChar_pos c
    have hget : (encode (c :: cs))[0]? = some (String.utf8EncodeChar c)[0] := by
      rw [encode_cons, List.getElem?_append_left hpos, List.getElem?_eq_getElem hpos]
    rw [h, List.getElem?_cons_zero] at hget
    rw [Option.some.inj hget]
    exact UInt8.isUTF8FirstByte_getElem_utf8EncodeChar.mpr rfl

/-- **Bytes of characters that are found in bytes of characters are these characters there.** -/
lemma exists_of_encode_prefix_drop (hds : ds ≠ []) (h : encode ds <+: (encode cs).drop n) :
    ∃ front back, cs = front ++ ds ++ back ∧ (encode front).length = n := by
  obtain ⟨b, bs, hbytes⟩ := List.exists_cons_of_ne_nil fun hnil => hds (encode_eq_nil_iff.1 hnil)
  have hget : (encode cs)[n]? = some b := by
    obtain ⟨r, hr⟩ := h
    have hhead := congrArg (·[0]?) hr
    simpa [hbytes, List.getElem?_drop] using hhead.symm
  obtain ⟨front, back, rfl, hlen⟩ := exists_boundary (isUTF8FirstByte_head hbytes) hget
  rw [encode_append, ← hlen, List.drop_left] at h
  obtain ⟨rest, rfl⟩ := encode_prefix h
  exact ⟨front, rest, (List.append_assoc _ _ _).symm, hlen⟩

end Utf8
