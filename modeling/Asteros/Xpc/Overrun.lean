import Asteros.Xpc.Untrusted

set_option autoImplicit false

/-!
# The key that is too long

The length of a dictionary key is a 32-bit number, and `malloc(klen + 1)` is computed in 32 bits:
for the largest length nothing is allocated and 4 GiB are copied. Which buffers bring the decoder
there is said by a grammar of what a message may begin with, not by the decoder.

## Main definitions

* `Overlong` — a key of `2 ^ 32 - 1` bytes is there at a place where a key is read.
* `SafelyDecoded` — the decoder ends, stays inside the buffer and inside its allocations.

## Main results

* `decode_splits` — a copy overruns its allocation on the overlong buffers only.
* `decode_safe_iff` — decoding is safe exactly on the others.
-/

namespace Asteros.Xpc

open Asteros.Libc LittleEndian

/-! ## Overlong buffers -/

mutual
/-- What begins with a message, or with the part of one up to a key of `2 ^ 32 - 1` bytes. -/
inductive Overlong : List UInt8 → Prop where
  | array {count : ℕ} {bs : List UInt8} : count < 2 ^ 32 → OverlongItems count bs →
      Overlong (WireTag.array.toByte :: (leBytes 4 count ++ bs))
  | dict {count : ℕ} {bs : List UInt8} : count < 2 ^ 32 → OverlongKvs count bs →
      Overlong (WireTag.dict.toByte :: (leBytes 4 count ++ bs))

/-- One of the next `count` items, with whole ones in front of it, has such a key. -/
inductive OverlongItems : ℕ → List UInt8 → Prop where
  | here {count : ℕ} {bs : List UInt8} : Overlong bs → OverlongItems (count + 1) bs
  | later {count : ℕ} {w : Wire} {bs : List UInt8} : w.Fits → OverlongItems count bs →
      OverlongItems (count + 1) (w.bytes ++ bs)

/-- One of the next `count` entries, with whole ones in front of it, has such a key. -/
inductive OverlongKvs : ℕ → List UInt8 → Prop where
  | key {count : ℕ} {key bs : List UInt8} : key.length + 1 = 2 ^ 32 →
      OverlongKvs (count + 1) (leBytes 4 key.length ++ key ++ bs)
  | here {count : ℕ} {key bs : List UInt8} : key.length + 1 < 2 ^ 32 → Overlong bs →
      OverlongKvs (count + 1) (leBytes 4 key.length ++ key ++ bs)
  | later {count : ℕ} {key : List UInt8} {w : Wire} {bs : List UInt8} : key.length + 1 < 2 ^ 32 →
      w.Fits → OverlongKvs count bs →
      OverlongKvs (count + 1) (leBytes 4 key.length ++ key ++ (w.bytes ++ bs))
end

/-- What such a buffer begins with. -/
lemma overlong_cons_iff {b : UInt8} {bs : List UInt8} : Overlong (b :: bs) ↔
    (b = WireTag.array.toByte ∧
      ∃ count rest, count < 2 ^ 32 ∧ bs = leBytes 4 count ++ rest ∧ OverlongItems count rest) ∨
    (b = WireTag.dict.toByte ∧
      ∃ count rest, count < 2 ^ 32 ∧ bs = leBytes 4 count ++ rest ∧ OverlongKvs count rest) := by
  constructor
  · generalize h : b :: bs = l
    intro hl
    cases hl with
    | array hc hi =>
      rw [List.cons.injEq] at h
      exact .inl ⟨h.1, _, _, hc, h.2, hi⟩
    | dict hc hk =>
      rw [List.cons.injEq] at h
      exact .inr ⟨h.1, _, _, hc, h.2, hk⟩
  · rintro (⟨rfl, count, rest, hc, rfl, hi⟩ | ⟨rfl, count, rest, hc, rfl, hk⟩)
    · exact .array hc hi
    · exact .dict hc hk

/-- The next value has such a key, or it is whole and what is behind it does as `long` says. -/
def OverlongThen (long : List UInt8 → Prop) (bs : List UInt8) : Prop :=
  Overlong bs ∨ ∃ (w : Wire) (rest : List UInt8), w.Fits ∧ bs = w.bytes ++ rest ∧ long rest

/-- The first of some items, or a later one. -/
lemma overlongItems_succ_iff {count : ℕ} {bs : List UInt8} :
    OverlongItems (count + 1) bs ↔ OverlongThen (OverlongItems count) bs := by
  constructor
  · intro h
    cases h with
    | here h => exact .inl h
    | later hw h => exact .inr ⟨_, _, hw, rfl, h⟩
  · rintro (h | ⟨w, rest, hw, rfl, h⟩)
    · exact .here h
    · exact .later hw h

/-- The key of the first of some entries, its value, or a later entry. -/
lemma overlongKvs_succ_iff {count : ℕ} {bs : List UInt8} : OverlongKvs (count + 1) bs ↔
    ∃ key rest : List UInt8, bs = leBytes 4 key.length ++ key ++ rest ∧
      (key.length + 1 = 2 ^ 32 ∨
        key.length + 1 < 2 ^ 32 ∧ OverlongThen (OverlongKvs count) rest) := by
  constructor
  · intro h
    cases h with
    | key hlen => exact ⟨_, _, rfl, .inl hlen⟩
    | here hlen h => exact ⟨_, _, rfl, .inr ⟨hlen, .inl h⟩⟩
    | later hlen hw h => exact ⟨_, _, rfl, .inr ⟨hlen, .inr ⟨_, _, hw, rfl, h⟩⟩⟩
  · rintro ⟨key, rest, rfl, hlen | ⟨hlen, h | ⟨w, rest', hw, rfl, h⟩⟩⟩
    · exact .key hlen
    · exact .here hlen h
    · exact .later hlen hw h

/-- Behind a key that is not too long. -/
lemma overlongKvs_succ_append {count : ℕ} {key rest : List UInt8} (hlen : key.length + 1 < 2 ^ 32) :
    OverlongKvs (count + 1) (leBytes 4 key.length ++ key ++ rest) ↔
      OverlongThen (OverlongKvs count) rest := by
  rw [overlongKvs_succ_iff]
  constructor
  · rintro ⟨key', rest', heq, h⟩
    rw [List.append_assoc, List.append_assoc] at heq
    obtain ⟨hkeys, heq⟩ :=
      Wire.length_field_inj (by omega) (by rcases h with h | ⟨h, -⟩ <;> omega) heq
    obtain ⟨rfl, rfl⟩ := List.append_inj heq hkeys
    exact (h.resolve_left hlen.ne).2
  · exact fun h => ⟨key, rest, rfl, .inr ⟨hlen, h⟩⟩

mutual
/-- Such a buffer has 4 GiB or more. -/
lemma Overlong.le_length {bs : List UInt8} : Overlong bs → 2 ^ 32 ≤ bs.length
  | .array _ h => by
    have hle := h.le_length
    rw [List.length_cons, List.length_append]
    omega
  | .dict _ h => by
    have hle := h.le_length
    rw [List.length_cons, List.length_append]
    omega

/-- So have the items. -/
lemma OverlongItems.le_length {count : ℕ} {bs : List UInt8} :
    OverlongItems count bs → 2 ^ 32 ≤ bs.length
  | .here h => h.le_length
  | .later _ h => by
    have hle := h.le_length
    rw [List.length_append]
    omega

/-- So have the entries. -/
lemma OverlongKvs.le_length {count : ℕ} {bs : List UInt8} :
    OverlongKvs count bs → 2 ^ 32 ≤ bs.length
  | .key hlen => by
    rw [List.length_append, List.length_append, length_leBytes]
    omega
  | .here _ h => by
    have hle := h.le_length
    rw [List.length_append]
    omega
  | .later _ _ h => by
    have hle := h.le_length
    simp only [List.length_append]
    omega
end

/-! ## Copies and allocations -/

/-- Every copy of the trace fits into what was allocated for it. -/
def CopiesFit (t : List Event) : Prop := ∀ off n cap, .copy off n cap ∈ t → n ≤ cap

/-- From `r` to `r'` every copy fits. -/
def Within (r r' : Reader) : Prop := ∃ new, r'.trace = new ++ r.trace ∧ CopiesFit new

/-- From `r` to `r'` every copy fits; or one does not, which ends the decoding, and that is so
exactly if `long`. -/
def Splits (failed long : Prop) (r r' : Reader) : Prop :=
  ∃ new, r'.trace = new ++ r.trace ∧
    (CopiesFit new ∧ ¬long ∨ ¬CopiesFit new ∧ failed ∧ long)

section

variable {r r₁ r' : Reader} {failed failed' long long' : Prop}

/-- Two parts of a trace. -/
lemma copiesFit_append {s t : List Event} : CopiesFit (s ++ t) ↔ CopiesFit s ∧ CopiesFit t := by
  simp only [CopiesFit, List.mem_append, or_imp, forall_and]

/-- Nothing is copied. -/
lemma Within.refl (r : Reader) : Within r r := ⟨[], rfl, by simp [CopiesFit]⟩

/-- One after the other. -/
lemma Within.trans (h : Within r r₁) (h' : Within r₁ r') : Within r r' := by
  obtain ⟨new, htrace, hfit⟩ := h
  obtain ⟨new', htrace', hfit'⟩ := h'
  exact ⟨new' ++ new, by rw [htrace', htrace, List.append_assoc],
    copiesFit_append.mpr ⟨hfit', hfit⟩⟩

/-- An object is created, or a call entered. -/
lemma Within.log (h : Within r r₁) {e : Event} (he : ∀ off n cap, e ≠ .copy off n cap) :
    Within r (r₁.log e) := by
  refine h.trans ⟨[e], rfl, fun off n cap hmem => ?_⟩
  exact absurd (List.mem_singleton.mp hmem).symm (he off n cap)

/-- Bytes are copied into an allocation of their size. -/
lemma Within.consume (h : Within r r₁) {n cap : ℕ} (hcap : n ≤ cap) :
    Within r (r₁.consume n cap) := by
  refine h.trans ⟨[.move (sizeAdd r₁.pos n), .copy r₁.pos n cap], rfl, fun off m c hmem => ?_⟩
  simp only [List.mem_cons, reduceCtorEq, Event.copy.injEq, List.not_mem_nil, or_false,
    false_or] at hmem
  obtain ⟨-, rfl, rfl⟩ := hmem
  exact hcap

/-- A part in which every copy fits. -/
lemma Within.splits (h : Within r r') (hlong : ¬long) : Splits failed long r r' := by
  obtain ⟨new, htrace, hfit⟩ := h
  exact ⟨new, htrace, .inl ⟨hfit, hlong⟩⟩

/-- Such a part in front. -/
lemma Within.trans_splits (h : Within r r₁) (h' : Splits failed long r₁ r') :
    Splits failed long r r' := by
  obtain ⟨new, htrace, hfit⟩ := h
  obtain ⟨new', htrace', hsplit⟩ := h'
  refine ⟨new' ++ new, by rw [htrace', htrace, List.append_assoc], ?_⟩
  rw [copiesFit_append]
  tauto

/-- What does not end the decoding is such a part. -/
lemma Splits.within (h : Splits failed long r r') (hfailed : ¬failed) : Within r r' ∧ ¬long := by
  obtain ⟨new, htrace, ⟨hfit, hlong⟩ | ⟨-, hf, -⟩⟩ := h
  · exact ⟨⟨new, htrace, hfit⟩, hlong⟩
  · exact absurd hf hfailed

/-- Another way to say when. -/
lemma Splits.congr (h : Splits failed long r r') (hfailed : failed → failed')
    (hlong : long ↔ long') : Splits failed' long' r r' := by
  obtain ⟨new, htrace, hsplit⟩ := h
  refine ⟨new, htrace, ?_⟩
  tauto

end

/-! ## Reading -/

/-- `r_bytes` into an object of that size. -/
lemma rBytes_within (r : Reader) (n : ℕ) : Within r (rBytes r n n).2 := by
  unfold rBytes
  split_ifs
  · exact Within.refl r
  · exact (Within.refl r).consume le_rfl

/-- `r_u8`. -/
lemma rU8_within (r : Reader) : Within r (rU8 r).2 := by
  have h := rBytes_within r 1
  unfold rU8
  split <;> next heq => rwa [heq] at h

/-- `r_u32`. -/
lemma rU32_within (r : Reader) : Within r (rU32 r).2 := by
  have h := rBytes_within r 4
  unfold rU32
  split <;> next heq => rwa [heq] at h

/-- `r_u64`. -/
lemma rU64_within (r : Reader) : Within r (rU64 r).2 := by
  have h := rBytes_within r 8
  unfold rU64
  split <;> next heq => rwa [heq] at h

/-- The read of a string or data body, whose allocation is computed in 64 bits. -/
lemma rBlob_within (r : Reader) {cap : ℕ → ℕ} (hcap : ∀ len, len ≤ cap len) :
    Within r (rBlob r cap).2 := by
  have h := rU32_within r
  unfold rBlob
  split
  · next heq =>
    rw [heq] at h
    exact h
  · next len r₁ heq =>
    rw [heq] at h
    split_ifs
    · exact h
    · exact Within.consume h (hcap len)

/-- What follows a 32-bit number is not there if the number is not. -/
lemma rU32_none {r r' : Reader} (hr : r.Ok) (he : r.error = false) (h : rU32 r = (none, r'))
    {v : ℕ} (hv : v < 2 ^ 32) (rest : List UInt8) : r.rest ≠ leBytes 4 v ++ rest := by
  intro hrest
  obtain ⟨r₁, hr₁, -⟩ := rU32_complete hr he hv hrest
  rw [h] at hr₁
  cases hr₁

/-- The read of a key: the copy overruns for the largest length. -/
lemma rKey_splits {r r' : Reader} {res : Option (List UInt8)} (hr : r.Ok) (he : r.error = false)
    (h : rKey r = (res, r')) : Splits (res = none) (∃ key rest : List UInt8,
      key.length + 1 = 2 ^ 32 ∧ r.rest = leBytes 4 key.length ++ key ++ rest) r r' := by
  have hread := rU32_within r
  unfold rKey at h
  cases hb : rU32 r with
  | mk len r₁ =>
    rw [hb] at h hread
    cases len with
    | none =>
      cases h
      refine Within.splits hread ?_
      rintro ⟨key, rest, hlen, hrest⟩
      rw [List.append_assoc] at hrest
      exact rU32_none hr he hb (by omega) _ hrest
    | some klen =>
      obtain ⟨hlt, hcons⟩ := rU32_sound hr hb
      -- a key at this place has the length that was read
      have hkey : ∀ key rest : List UInt8, key.length < 2 ^ 32 →
          r.rest = leBytes 4 key.length ++ key ++ rest →
          klen = key.length ∧ r₁.rest = key ++ rest := by
        intro key rest hklt hrest
        rw [hcons.rest, List.append_assoc] at hrest
        exact Wire.length_field_inj hlt hklt hrest
      have hwraps := toUint32_succ_lt_iff hlt
      dsimp only at h
      rw [Reader.sizeSub_len_pos (hcons.ok hr)] at h
      split_ifs at h with hn hwrap
      · cases h
        refine Within.splits hread ?_
        rintro ⟨key, rest, hlen, hrest⟩
        obtain ⟨rfl, hrest⟩ := hkey key rest (by omega) hrest
        rw [hrest, List.length_append] at hn
        omega
      · cases h
        rw [not_lt] at hn
        have htake : (r₁.rest.take klen).length = klen := List.length_take_of_le hn
        refine Within.trans_splits hread
          ⟨[.move (sizeAdd r₁.pos klen), .copy r₁.pos klen (toUint32 (klen + 1))], rfl,
            .inr ⟨fun hfit => ?_, rfl, r₁.rest.take klen, r₁.rest.drop klen, ?_, ?_⟩⟩
        · have hle := hfit r₁.pos klen (toUint32 (klen + 1)) (by simp)
          exact absurd hwrap (not_lt.mpr hle)
        · rw [htake, hwraps.mp hwrap]
        · rw [htake, List.append_assoc, List.take_append_drop, hcons.rest]
      · cases h
        refine (Within.consume hread (not_lt.mp hwrap)).splits ?_
        rintro ⟨key, rest, hlen, hrest⟩
        obtain ⟨rfl, -⟩ := hkey key rest (by omega) hrest
        exact hwrap (hwraps.mpr hlen)

/-! ## Decoding -/

/-- What is left does not grow. -/
lemma Consumes.left_le {r r' : Reader} {bs : List UInt8} (h : Consumes r bs r') :
    r'.buf.len - r'.pos ≤ r.buf.len - r.pos := by
  rw [h.buf, h.pos]
  omega

/-- The decoder of the values, for the loops. -/
def DecodeSplits (limit depth : ℕ) : Prop :=
  ∀ r res r', r.Ok → r.error = false → r.buf.len - r.pos < limit →
    decode limit depth r = some (res, r') → Splits (res = none) (Overlong r.rest) r r'

section

variable {limit depth : ℕ} {long : List UInt8 → Prop} {r r₁ r' : Reader}

/-- A value that is refused is not whole. -/
lemma overlongThen_refused (hr : r.Ok) (he : r.error = false) (hlimit : r.buf.len - r.pos < limit)
    (h : decode limit depth r = some (none, r₁)) : Overlong r.rest ↔ OverlongThen long r.rest := by
  refine ⟨.inl, fun hthen => hthen.resolve_right ?_⟩
  rintro ⟨w, rest, hw, hrest, -⟩
  have hdepth : w.depth < limit := by
    have hlt := w.depth_lt_length
    have hlen := congrArg List.length hrest
    rw [Reader.rest, List.length_append, List.length_drop] at hlen
    unfold Buffer.len at hlimit
    omega
  obtain ⟨r₂, hdec, -⟩ := decode_complete limit depth w hw hdepth r rest hr he hrest
  rw [h] at hdec
  cases hdec

/-- A value that is accepted is whole. -/
lemma overlongThen_accepted {w : Wire} (hw : w.Fits) (hcons : Consumes r w.bytes r₁)
    (hnot : ¬Overlong r.rest) : long r₁.rest ↔ OverlongThen long r.rest := by
  constructor
  · exact fun h => .inr ⟨w, r₁.rest, hw, hcons.rest, h⟩
  · rintro (h | ⟨w', rest, hw', hrest, h⟩)
    · exact absurd h hnot
    · rw [hcons.rest] at hrest
      obtain ⟨-, rfl⟩ := Wire.bytes_append_inj hw hw' hrest
      exact h

/-- The loop over items. -/
lemma decodeItems_splits (hdec : DecodeSplits limit depth) {count : ℕ} {xs : List XpcObject}
    {res : Option (List XpcObject)} (hr : r.Ok) (he : r.error = false)
    (hlimit : r.buf.len - r.pos < limit)
    (h : decodeItems (decode limit depth) count xs r = some (res, r')) :
    Splits (res = none) (OverlongItems count r.rest) r r' := by
  induction count generalizing xs r with
  | zero =>
    cases h
    exact (Within.refl _).splits (by rintro ⟨⟩)
  | succ count ih =>
    rw [decodeItems] at h
    rw [overlongItems_succ_iff]
    split at h
    · cases h
    · next r₁ hv =>
      cases h
      exact (hdec r _ _ hr he hlimit hv).congr (fun _ => rfl) (overlongThen_refused hr he hlimit hv)
    · next v r₁ hv =>
      obtain ⟨hwithin, hnot⟩ := (hdec r _ _ hr he hlimit hv).within (Option.some_ne_none v)
      obtain ⟨w, hw, -, hcons⟩ := decode_sound limit depth r v r₁ hr hv
      have hloop := ih (hcons.ok hr) hcons.error (hcons.left_le.trans_lt hlimit) h
      exact hwithin.trans_splits (hloop.congr id (overlongThen_accepted hw hcons hnot))

/-- The loop over entries. -/
lemma decodeKvs_splits (hdec : DecodeSplits limit depth) {count : ℕ} {es : XpcKvs}
    {res : Option XpcKvs} (hr : r.Ok) (he : r.error = false) (hlimit : r.buf.len - r.pos < limit)
    (h : decodeKvs (decode limit depth) count es r = some (res, r')) :
    Splits (res = none) (OverlongKvs count r.rest) r r' := by
  induction count generalizing es r with
  | zero =>
    cases h
    exact (Within.refl _).splits (by rintro ⟨⟩)
  | succ count ih =>
    rw [decodeKvs] at h
    split at h
    · next r₁ hb =>
      cases h
      refine (rKey_splits hr he hb).congr (fun _ => rfl) ?_
      rw [overlongKvs_succ_iff]
      constructor
      · rintro ⟨key, rest, hlen, hrest⟩
        exact ⟨key, rest, hrest, .inl hlen⟩
      · rintro ⟨key, rest, hrest, hlen | ⟨hlen, -⟩⟩
        · exact ⟨key, rest, hlen, hrest⟩
        · obtain ⟨r₂, hr₂, -⟩ := rKey_complete hr he hlen hrest
          rw [hb] at hr₂
          cases hr₂
    · next key r₁ hb =>
      obtain ⟨hkey, -⟩ := (rKey_splits hr he hb).within (Option.some_ne_none key)
      obtain ⟨hlen, hhead⟩ := rKey_sound hr hb
      have hok := hhead.ok hr
      have hleft := hhead.left_le.trans_lt hlimit
      rw [hhead.rest, overlongKvs_succ_append hlen]
      refine hkey.trans_splits ?_
      split at h
      · cases h
      · next r₂ hv =>
        cases h
        exact (hdec r₁ _ _ hok hhead.error hleft hv).congr (fun _ => rfl)
          (overlongThen_refused hok hhead.error hleft hv)
      · next v r₂ hv =>
        obtain ⟨hwithin, hnot⟩ :=
          (hdec r₁ _ _ hok hhead.error hleft hv).within (Option.some_ne_none v)
        obtain ⟨w, hw, -, hcons⟩ := decode_sound limit depth r₁ v r₂ hok hv
        have hloop := ih (hcons.ok hok) hcons.error (hcons.left_le.trans_lt hleft) h
        exact hwithin.trans_splits (hloop.congr id (overlongThen_accepted hw hcons hnot))

/-- A leaf. -/
lemma decodeLeaf_within {α : Type} {f : α → XpcObject} {read : Option α × Reader}
    {res : Option XpcObject} (hread : Within r read.2) (h : decodeLeaf f read = some (res, r')) :
    Within r r' := by
  obtain ⟨v, r₁⟩ := read
  cases v <;> cases h
  · exact hread
  · exact Within.log hread (by simp)

/-- A container, by its loop. -/
lemma decodeContainer_splits {α : Type} {f : α → XpcObject} {loop : ℕ → Reader → Decoded α}
    {long : ℕ → List UInt8 → Prop} {out : Option XpcObject} (hr : r.Ok) (he : r.error = false)
    (hloop : ∀ (count : ℕ) (r₁ : Reader) (res : Option α), r₁.Ok → r₁.error = false →
      r₁.buf.len - r₁.pos ≤ r.buf.len - r.pos → loop count r₁ = some (res, r') →
      Splits (res = none) (long count r₁.rest) r₁ r')
    (h : decodeContainer f loop r = some (out, r')) :
    Splits (out = none) (∃ count rest,
      count < 2 ^ 32 ∧ r.rest = leBytes 4 count ++ rest ∧ long count rest) r r' := by
  have hread := rU32_within r
  unfold decodeContainer at h
  cases hb : rU32 r with
  | mk res r₁ =>
    rw [hb] at h hread
    cases res with
    | none =>
      cases h
      refine Within.splits hread ?_
      rintro ⟨count, rest, hlt, hrest, -⟩
      exact rU32_none hr he hb hlt rest hrest
    | some count =>
      obtain ⟨⟨v, r₂⟩, hv, heq⟩ := Option.map_eq_some_iff.mp h
      obtain ⟨rfl, rfl⟩ := Prod.mk.inj heq
      obtain ⟨hlt, hcons⟩ := rU32_sound hr hb
      have hhead := hcons.log .create
      have hsplit := hloop count _ v (hhead.ok hr) hhead.error hhead.left_le hv
      refine (Within.log hread (by simp)).trans_splits (hsplit.congr (fun hnone => ?_) ?_)
      · rw [hnone, Option.map_none]
      · constructor
        · exact fun hlong => ⟨count, r₁.rest, hlt, hcons.rest, hlong⟩
        · rintro ⟨count', rest, hlt', hrest, hlong⟩
          rw [hcons.rest] at hrest
          obtain ⟨rfl, rfl⟩ := Wire.length_field_inj hlt hlt' hrest
          exact hlong

/-- The body of a value behind its tag. -/
lemma decodeBody_splits (hdec : DecodeSplits limit depth) {t : WireTag} {res : Option XpcObject}
    (hr : r.Ok) (he : r.error = false) (hlimit : r.buf.len - r.pos < limit)
    (h : decodeBody (decode limit depth) t r = some (res, r')) :
    Splits (res = none) (Overlong (t.toByte :: r.rest)) r r' := by
  rw [overlong_cons_iff]
  cases t with
  | null =>
    cases h
    exact ((Within.refl r).log (by simp)).splits (by simp [WireTag.toByte])
  | bool => exact (decodeLeaf_within (rU8_within r) h).splits (by simp [WireTag.toByte])
  | int64 => exact (decodeLeaf_within (rU64_within r) h).splits (by simp [WireTag.toByte])
  | uint64 => exact (decodeLeaf_within (rU64_within r) h).splits (by simp [WireTag.toByte])
  | double => exact (decodeLeaf_within (rU64_within r) h).splits (by simp [WireTag.toByte])
  | string =>
    exact (decodeLeaf_within (rBlob_within r fun len => Nat.le_succ len) h).splits
      (by simp [WireTag.toByte])
  | data =>
    exact (decodeLeaf_within (rBlob_within r fun len => Nat.le_max_left len 1) h).splits
      (by simp [WireTag.toByte])
  | array =>
    have hsplit : Splits (res = none) (∃ count rest, count < 2 ^ 32 ∧
        r.rest = leBytes 4 count ++ rest ∧ OverlongItems count rest) r r' :=
      decodeContainer_splits hr he (fun _ _ _ hok herr hleft =>
        decodeItems_splits hdec hok herr (hleft.trans_lt hlimit)) h
    exact hsplit.congr id (by simp [WireTag.toByte])
  | dict =>
    have hsplit : Splits (res = none) (∃ count rest, count < 2 ^ 32 ∧
        r.rest = leBytes 4 count ++ rest ∧ OverlongKvs count rest) r r' :=
      decodeContainer_splits hr he (fun _ _ _ hok herr hleft =>
        decodeKvs_splits hdec hok herr (hleft.trans_lt hlimit)) h
    exact hsplit.congr id (by simp [WireTag.toByte])

end

/-- **A copy overruns its allocation on the overlong buffers only**, and that ends the decoding.

**Proof sketch.** Induction on the limit. A value that is accepted is the image of a tree, and the
format is unambiguous, so that the grammar can follow the loops of the decoder. -/
theorem decode_splits (limit depth : ℕ) : DecodeSplits limit depth := by
  induction limit generalizing depth with
  | zero =>
    intro r res r' hr he hlimit h
    cases h
  | succ limit ih =>
    intro r res r' hr he hlimit h
    have hread := rU8_within (r.log (.enter depth))
    have henter : Within r (r.log (.enter depth)) := (Within.refl r).log (by simp)
    rw [decode] at h
    split at h
    · next r₁ htag =>
      cases h
      rw [htag] at hread
      refine (henter.trans hread).splits fun hlong => ?_
      cases hrest : r.rest with
      | nil =>
        rw [hrest] at hlong
        cases hlong
      | cons b rest =>
        obtain ⟨r₂, hr₂, -⟩ := rU8_complete (r := r.log (.enter depth)) hr he hrest
        rw [htag] at hr₂
        cases hr₂
    · next tag r₁ htag =>
      rw [htag] at hread
      have hcons := (rU8_sound (r := r.log (.enter depth)) hr htag).of_log
      rw [hcons.rest, List.singleton_append]
      split at h
      · next ht =>
        cases h
        refine Within.splits (henter.trans hread) fun hlong => ?_
        rcases overlong_cons_iff.mp hlong with ⟨rfl, -⟩ | ⟨rfl, -⟩ <;>
          simp [WireTag.ofByte_toByte] at ht
      · next t ht =>
        obtain rfl := WireTag.toByte_of_ofByte ht
        have hleft : r₁.buf.len - r₁.pos < limit := by
          have hlen := congrArg List.length hcons.rest
          rw [Reader.rest, List.length_drop, List.length_append, Reader.rest, List.length_drop,
            List.length_singleton] at hlen
          unfold Buffer.len at *
          omega
        exact (henter.trans hread).trans_splits
          (decodeBody_splits (ih (depth + 1)) (hcons.ok hr) hcons.error hleft h)

/-! ## Untrusted payloads -/

/-- The decoder, called at `r`, ends with one outcome whatever the limit above the number of bytes
left. The position never leaves the buffer, every range copied lies inside it and fits into what was
allocated for it, and the number of objects created and the nesting depth reached are at most the
number of bytes consumed. -/
def SafelyDecoded (depth : ℕ) (r : Reader) : Prop :=
  ∃ res r' new,
    (∀ limit, r.buf.len - r.pos < limit → decode limit depth r = some (res, r')) ∧
    r'.buf = r.buf ∧ r.pos ≤ r'.pos ∧ r'.pos ≤ r.buf.len ∧ r'.trace = new ++ r.trace ∧
    (∀ pos, .move pos ∈ new → pos ≤ r.buf.len) ∧
    (∀ off n cap, .copy off n cap ∈ new → off + n ≤ r.buf.len ∧ n ≤ cap) ∧
    (∀ d, .enter d ∈ new → d - depth ≤ r'.pos - r.pos) ∧
    created new ≤ r'.pos - r.pos

/-- Decoding an overlong buffer is not safe. -/
lemma not_safelyDecoded_of_overlong {depth : ℕ} {r : Reader} (hr : r.Ok) (he : r.error = false)
    (hlong : Overlong r.rest) : ¬SafelyDecoded depth r := by
  rintro ⟨res, r', new, hdec, -, -, -, htrace, -, hcopy, -⟩
  obtain ⟨new', htrace', ⟨-, hnot⟩ | ⟨hfit, -⟩⟩ :=
    decode_splits _ depth r res r' hr he (Nat.lt_succ_self _) (hdec _ (Nat.lt_succ_self _))
  · exact hnot hlong
  · rw [htrace, List.append_left_inj] at htrace'
    exact hfit fun off n cap hmem => (hcopy off n cap (htrace' ▸ hmem)).2

/-- **Decoding an untrusted payload is safe** exactly unless a key of `2 ^ 32 - 1` bytes is there
where a key is read: from any position inside any buffer.

**Proof sketch.** What `decode_spent` says at the smallest limit is carried to the others by
`decode_mono`; whether the copies fit is `decode_splits`. With the error flag set nothing is
read. -/
theorem decode_safe_iff (depth : ℕ) (r : Reader) (hr : r.pos ≤ r.buf.len) :
    SafelyDecoded depth r ↔ (r.error = false → ¬Overlong r.rest) := by
  obtain ⟨res, r', hdec, hbuf, hpos, hok, new, htrace, hsafe, hcount⟩ :=
    decode_spent (r.buf.len - r.pos + 1) depth r hr (Nat.lt_succ_self _)
  constructor
  · exact fun hsafely he hlong => not_safelyDecoded_of_overlong hr he hlong hsafely
  · intro hnot
    have hfit : CopiesFit new := by
      cases he : r.error with
      | true =>
        have hstop : decode (r.buf.len - r.pos + 1) depth r =
            some (none, (r.log (.enter depth)).fail) := by
          simp [decode, rU8, rBytes, Reader.log, he]
        rw [hstop] at hdec
        cases hdec
        have hnew : new = [.enter depth] :=
          (List.append_left_inj r.trace).mp
            (htrace.symm : new ++ r.trace = [.enter depth] ++ r.trace)
        simp [hnew, CopiesFit]
      | false =>
        obtain ⟨new₂, htrace₂, ⟨hfit, -⟩ | ⟨-, -, hlong⟩⟩ :=
          decode_splits _ depth r res r' hr he (Nat.lt_succ_self _) hdec
        · rw [htrace, List.append_left_inj] at htrace₂
          exact htrace₂ ▸ hfit
        · exact absurd hlong (hnot he)
    refine ⟨res, r', new, fun limit hlimit => decode_mono hlimit depth r hdec, hbuf, hpos,
      hbuf ▸ hok, htrace, fun pos hmem => hsafe _ hmem, fun off n cap hmem => ?_,
      fun d hmem => (hsafe _ hmem).2, hcount⟩
    exact ⟨hsafe _ hmem, hfit off n cap hmem⟩

/-- A message of nine bytes that declares an array of `2 ^ 32 - 1` items. -/
def hugeCount : Buffer := ⟨[8, 255, 255, 255, 255, 2, 1, 2, 1], by decide⟩

/-- Decoding it gives up within the nine bytes. -/
theorem decode_safe_hugeCount : SafelyDecoded 0 (Reader.start hugeCount) :=
  (decode_safe_iff 0 (Reader.start hugeCount) (by decide)).mpr fun _ hlong =>
    absurd hlong.le_length (by decide)

/-- A dictionary of one entry with this key, up to the key. -/
def keyMessage (key : List UInt8) : List UInt8 :=
  WireTag.dict.toByte :: (leBytes 4 1 ++ (leBytes 4 key.length ++ key ++ []))

/-- Its length. -/
lemma length_keyMessage (key : List UInt8) : (keyMessage key).length = key.length + 9 := by
  simp only [keyMessage, List.length_cons, List.length_append, length_leBytes, List.length_nil]
  omega

/-- The one with a longest key is overlong. -/
lemma overlong_keyMessage {key : List UInt8} (h : key.length + 1 = 2 ^ 32) :
    Overlong (keyMessage key) :=
  .dict (by norm_num) (.key h)

/-- The longest key of bytes `a`. -/
def longestKey : List UInt8 := List.replicate (2 ^ 32 - 1) 97

/-- Its length. -/
lemma length_longestKey : longestKey.length + 1 = 2 ^ 32 :=
  congrArg (· + 1) List.length_replicate

/-- The message is a buffer. -/
lemma length_longestMessage_lt : (keyMessage longestKey).length < 2 ^ 64 := by
  rw [length_keyMessage, Nat.eq_sub_of_add_eq length_longestKey]
  norm_num

/-- **The decoder overruns an allocation**: the key is copied into no bytes at all. -/
theorem not_decode_safe_longestKey :
    ¬SafelyDecoded 0 (Reader.start ⟨keyMessage longestKey, length_longestMessage_lt⟩) :=
  not_safelyDecoded_of_overlong (Nat.zero_le _) rfl (overlong_keyMessage length_longestKey)

end Asteros.Xpc
