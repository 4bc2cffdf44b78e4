import Asteros.Xpc.Wire

set_option autoImplicit false

/-!
# Reading an object graph from the wire

The decoder of `xpc_serialize.c`: a reader with a position and an error flag over a buffer that
came from another process, and the recursive decoder. The C function recurses on nested values
and loops over 32-bit counts; here the recursion is bounded by an explicit limit, and running
into the limit is an outcome of its own (`none`), which `Untrusted` shows never to
happen for a limit above the number of bytes left. Allocation is assumed to succeed.

The reader also keeps a trace of what it does, for the statements about untrusted input: which
byte ranges are copied and into how many allocated bytes, every position it takes, every object
it creates, and the nesting depth of every call.

## Main definitions

* `Reader`, `rBytes` — `struct reader` and `r_bytes`.
* `decode`, `xpcDeserialize` — the decoder.

## Main results

* `decode_sound` — what the decoder accepts begins with the image of a wire tree, and the result is
  the tree's value.
* `decode_complete` — the image of a wire tree is accepted with the tree's value.
-/

namespace Asteros.Xpc

open Asteros.Libc LittleEndian

/-- The tag with a given value, if there is one: the `switch` of `decode`. -/
def WireTag.ofByte (b : UInt8) : Option WireTag :=
  if b = WireTag.null.toByte then some .null
  else if b = WireTag.bool.toByte then some .bool
  else if b = WireTag.int64.toByte then some .int64
  else if b = WireTag.uint64.toByte then some .uint64
  else if b = WireTag.double.toByte then some .double
  else if b = WireTag.string.toByte then some .string
  else if b = WireTag.data.toByte then some .data
  else if b = WireTag.array.toByte then some .array
  else if b = WireTag.dict.toByte then some .dict
  else none

/-- A tag is recognised by its value. -/
@[simp] lemma WireTag.ofByte_toByte (t : WireTag) : WireTag.ofByte t.toByte = some t := by
  cases t <;> decide

/-- A recognised byte is the value of the tag. -/
lemma WireTag.toByte_of_ofByte {b : UInt8} {t : WireTag} (h : WireTag.ofByte b = some t) :
    b = t.toByte := by
  unfold WireTag.ofByte at h
  split_ifs at h with h₁ h₂ h₃ h₄ h₅ h₆ h₇ h₈ h₉ <;> cases h <;> assumption

/-! ## The reader -/

/-- What the decoder does, as far as safety is concerned. -/
inductive Event where
  /-- A call of `decode` at the given nesting depth. -/
  | enter (depth : ℕ)
  /-- A copy of `n` bytes from `buf + off` into an object of `cap` bytes. -/
  | copy (off n cap : ℕ)
  /-- The reader position becomes `pos`. -/
  | move (pos : ℕ)
  /-- An XPC object is allocated. -/
  | create

/-- `struct reader`, with its trace, latest event first. -/
structure Reader where
  /-- `buf` and `len`. -/
  buf : Buffer
  /-- `pos`. -/
  pos : ℕ
  /-- `error`. -/
  error : Bool
  /-- What happened so far. -/
  trace : List Event

namespace Reader

/-- The bytes from the position on. -/
def rest (r : Reader) : List UInt8 := r.buf.bytes.drop r.pos

/-- Record an event. -/
def log (r : Reader) (e : Event) : Reader := { r with trace := e :: r.trace }

/-- Set the error flag. -/
def fail (r : Reader) : Reader := { r with error := true }

/-- Copy `n` bytes from the position into `cap` allocated bytes and advance. -/
def consume (r : Reader) (n cap : ℕ) : Reader :=
  { r with
    pos := sizeAdd r.pos n
    trace := .move (sizeAdd r.pos n) :: .copy r.pos n cap :: r.trace }

end Reader

/-- `r_bytes` into an object of `cap` bytes: fail on a set error flag or when fewer than `n`
bytes are left. -/
def rBytes (r : Reader) (n cap : ℕ) : Option (List UInt8) × Reader :=
  if r.error ∨ sizeSub r.buf.len r.pos < n then (none, r.fail)
  else (some (r.rest.take n), r.consume n cap)

/-- `r_u8`. -/
def rU8 (r : Reader) : Option UInt8 × Reader :=
  match rBytes r 1 1 with
  | (some bs, r) => (some (UInt8.ofNat (leVal bs)), r)
  | (none, r) => (none, r)

/-- `r_u32`. -/
def rU32 (r : Reader) : Option ℕ × Reader :=
  match rBytes r 4 4 with
  | (some bs, r) => (some (leVal bs), r)
  | (none, r) => (none, r)

/-- `r_u64`, and the read of a `double`, which has the same size. -/
def rU64 (r : Reader) : Option UInt64 × Reader :=
  match rBytes r 8 8 with
  | (some bs, r) => (some (UInt64.ofNat (leVal bs)), r)
  | (none, r) => (none, r)

/-- The body of a string or data object: a 32-bit length and that many bytes, copied into an
allocation of `cap len` bytes. Either failure sets the error flag. -/
def rBlob (r : Reader) (cap : ℕ → ℕ) : Option (List UInt8) × Reader :=
  match rU32 r with
  | (none, r) => (none, r.fail)
  | (some len, r) =>
    if sizeSub r.buf.len r.pos < len then (none, r.fail)
    else (some (r.rest.take len), r.consume len (cap len))

/-- A dictionary key: a 32-bit length and that many bytes, copied into `malloc(klen + 1)`, where
the sum is computed on `uint32_t`. A length beyond the input does not set the error flag. For
`klen = UINT32_MAX` the sum is 0 and the copy overruns the allocation: what the code does behind it is
not defined, and the decoding ends here, with that copy in its trace. -/
def rKey (r : Reader) : Option (List UInt8) × Reader :=
  match rU32 r with
  | (none, r) => (none, r)
  | (some klen, r) =>
    if sizeSub r.buf.len r.pos < klen then (none, r)
    else
      (if toUint32 (klen + 1) < klen then none else some (r.rest.take klen),
        r.consume klen (toUint32 (klen + 1)))

/-! ## The decoder -/

/-- The result of a decoding step: `none` when the recursion limit is hit; otherwise the value,
if the step did not fail, and the reader. -/
abbrev Decoded (α : Type) := Option (Option α × Reader)

/-- A leaf object: created from what was read, or `NULL`. -/
def decodeLeaf {α : Type} (f : α → XpcObject) : Option α × Reader → Decoded XpcObject
  | (some v, r) => some (some (f v), r.log .create)
  | (none, r) => some (none, r)

/-- The loop over the items of an array; `dec` decodes one value and `xs` is the array so far. -/
def decodeItems (dec : Reader → Decoded XpcObject) :
    ℕ → List XpcObject → Reader → Decoded (List XpcObject)
  | 0, xs, r => some (some xs, r)
  | count + 1, xs, r =>
    match dec r with
    | none => none
    | some (none, r) => some (none, r)
    | some (some v, r) => decodeItems dec count (xs ++ [v]) r

/-- The loop over the entries of a dictionary; `es` is the dictionary so far. -/
def decodeKvs (dec : Reader → Decoded XpcObject) : ℕ → XpcKvs → Reader → Decoded XpcKvs
  | 0, es, r => some (some es, r)
  | count + 1, es, r =>
    match rKey r with
    | (none, r) => some (none, r)
    | (some key, r) =>
      match dec r with
      | none => none
      | some (none, r) => some (none, r)
      | some (some v, r) =>
        decodeKvs dec count (xpcDictionarySetValue es (CString.ofBytes key) v) r

/-- A container: a 32-bit count, an empty object, and the loop that fills it. -/
def decodeContainer {α : Type} (f : α → XpcObject) (loop : ℕ → Reader → Decoded α) (r : Reader) :
    Decoded XpcObject :=
  match rU32 r with
  | (none, r) => some (none, r)
  | (some count, r) => (loop count (r.log .create)).map fun (v, r) => (v.map f, r)

/-- The `switch` of `decode` on the tag; `dec` is the recursive call. -/
def decodeBody (dec : Reader → Decoded XpcObject) (tag : WireTag) (r : Reader) :
    Decoded XpcObject :=
  match tag with
  | .null => decodeLeaf (fun _ : Unit => .null) (some (), r)
  | .bool => decodeLeaf (fun v => .bool (v != 0)) (rU8 r)
  | .int64 => decodeLeaf (fun v => .int64 v.toInt64) (rU64 r)
  | .uint64 => decodeLeaf .uint64 (rU64 r)
  | .double => decodeLeaf .double (rU64 r)
  | .string => decodeLeaf .string (rBlob r fun len => len + 1)
  | .data => decodeLeaf .data (rBlob r fun len => max len 1)
  | .array => decodeContainer .array (fun count r => decodeItems dec count [] r) r
  | .dict => decodeContainer .dictionary (fun count r => decodeKvs dec count [] r) r

/-- `decode`, with a recursion limit and the nesting depth of the call. -/
def decode : ℕ → ℕ → Reader → Decoded XpcObject
  | 0, _, _ => none
  | limit + 1, depth, r =>
    match rU8 (r.log (.enter depth)) with
    | (none, r) => some (none, r)
    | (some tag, r) =>
      match WireTag.ofByte tag with
      | none => some (none, r.fail)
      | some tag => decodeBody (decode limit (depth + 1)) tag r

/-- The reader at the start of a buffer. -/
def Reader.start (buf : Buffer) : Reader := ⟨buf, 0, false, []⟩

/-- `xpc_deserialize`, with a recursion limit above the length of the buffer. -/
def xpcDeserialize (buf : Buffer) : Decoded XpcObject :=
  decode (buf.len + 1) 0 (Reader.start buf)

/-! ## What the reader consumes -/

/-- The position lies inside the buffer. -/
def Reader.Ok (r : Reader) : Prop := r.pos ≤ r.buf.len

/-- From `r` to `r'` exactly the bytes `bs` are consumed, and no error is set. -/
structure Consumes (r : Reader) (bs : List UInt8) (r' : Reader) : Prop where
  /-- The buffer stays. -/
  buf : r'.buf = r.buf
  /-- The bytes are the ones at the position. -/
  rest : r.rest = bs ++ r'.rest
  /-- The position advances by their number. -/
  pos : r'.pos = r.pos + bs.length
  /-- The error flag is clear. -/
  error : r'.error = false

namespace Consumes

variable {r r₁ r₂ : Reader} {bs cs : List UInt8}

/-- Consuming in two steps. -/
lemma trans (h₁ : Consumes r bs r₁) (h₂ : Consumes r₁ cs r₂) : Consumes r (bs ++ cs) r₂ where
  buf := h₂.buf.trans h₁.buf
  rest := by rw [h₁.rest, h₂.rest, List.append_assoc]
  pos := by rw [h₂.pos, h₁.pos, List.length_append, Nat.add_assoc]
  error := h₂.error

/-- Recording an event before the consumption does not matter. -/
lemma of_log {e : Event} (h : Consumes (r.log e) bs r₁) : Consumes r bs r₁ :=
  ⟨h.buf, h.rest, h.pos, h.error⟩

/-- Recording an event after the consumption does not matter. -/
lemma log (h : Consumes r bs r₁) (e : Event) : Consumes r bs (r₁.log e) :=
  ⟨h.buf, h.rest, h.pos, h.error⟩

/-- A reader that consumes what is there stays inside the buffer. -/
lemma ok (h : Consumes r bs r₁) (hr : r.Ok) : r₁.Ok := by
  have hlen := congrArg List.length h.rest
  have hpos := h.pos
  simp only [Reader.rest, List.length_append, List.length_drop, h.buf] at hlen
  unfold Reader.Ok Buffer.len at *
  rw [h.buf]
  omega

end Consumes

/-- The number of bytes left, which the code computes as `len - pos`, does not wrap. -/
lemma Reader.sizeSub_len_pos {r : Reader} (hr : r.Ok) :
    sizeSub r.buf.len r.pos = r.rest.length := by
  rw [sizeSub_of_le hr r.buf.size_lt, Reader.rest, List.length_drop, Buffer.len]

/-- Consuming bytes that are there. -/
lemma consumes_consume {r : Reader} (hr : r.Ok) (he : r.error = false) {bs rest : List UInt8}
    (h : r.rest = bs ++ rest) (cap : ℕ) :
    Consumes r bs (r.consume bs.length cap) ∧ (r.consume bs.length cap).rest = rest := by
  have hle : r.pos + bs.length ≤ r.buf.len := by
    have hlen := congrArg List.length h
    simp only [Reader.rest, List.length_append, List.length_drop] at hlen
    unfold Reader.Ok Buffer.len at *
    omega
  have hpos : sizeAdd r.pos bs.length = r.pos + bs.length :=
    sizeAdd_of_lt (lt_of_le_of_lt hle r.buf.size_lt)
  have hrest : (r.consume bs.length cap).rest = rest := by
    simp only [Reader.rest, Reader.consume, hpos] at h ⊢
    rw [← List.drop_drop, h, List.drop_left]
  exact ⟨⟨rfl, by rw [hrest, h], hpos, he⟩, hrest⟩

/-- A successful `r_bytes` consumes `n` bytes. -/
lemma rBytes_sound {r r' : Reader} {n cap : ℕ} {bs : List UInt8} (hr : r.Ok)
    (h : rBytes r n cap = (some bs, r')) : bs.length = n ∧ Consumes r bs r' := by
  unfold rBytes at h
  split_ifs at h with hc
  · cases h
  · obtain ⟨he, hn⟩ := not_or.mp hc
    rw [Reader.sizeSub_len_pos hr, not_lt] at hn
    cases h
    have hlen : (r.rest.take n).length = n := List.length_take_of_le hn
    have hcons := consumes_consume hr (by simpa using he) (List.take_append_drop n r.rest).symm cap
    rw [hlen] at hcons
    exact ⟨hlen, hcons.1⟩

/-- `r_bytes` succeeds when the bytes are there. -/
lemma rBytes_complete {r : Reader} (hr : r.Ok) (he : r.error = false) {n : ℕ}
    {bs rest : List UInt8} (hn : bs.length = n) (h : r.rest = bs ++ rest) (cap : ℕ) :
    ∃ r', rBytes r n cap = (some bs, r') ∧ Consumes r bs r' ∧ r'.rest = rest := by
  subst hn
  have hc : ¬(r.error = true ∨ sizeSub r.buf.len r.pos < bs.length) := by
    rw [Reader.sizeSub_len_pos hr, h]
    simp [he]
  refine ⟨r.consume bs.length cap, ?_, consumes_consume hr he h cap⟩
  rw [rBytes, if_neg hc, h, List.take_left]

/-- A successful `r_u8` consumes the byte it returns. -/
lemma rU8_sound {r r' : Reader} {v : UInt8} (hr : r.Ok) (h : rU8 r = (some v, r')) :
    Consumes r [v] r' := by
  unfold rU8 at h
  cases hb : rBytes r 1 1 with
  | mk res r₁ =>
    rw [hb] at h
    cases res with
    | none => cases h
    | some bs =>
      obtain ⟨hlen, hcons⟩ := rBytes_sound hr hb
      obtain ⟨b, rfl⟩ := List.length_eq_one_iff.mp hlen
      cases h
      simpa [leVal] using hcons

/-- `r_u8` returns the next byte. -/
lemma rU8_complete {r : Reader} (hr : r.Ok) (he : r.error = false) {v : UInt8}
    {rest : List UInt8} (h : r.rest = v :: rest) :
    ∃ r', rU8 r = (some v, r') ∧ Consumes r [v] r' ∧ r'.rest = rest := by
  have hone : r.rest = [v] ++ rest := h
  obtain ⟨r', hr', hcons, hrest⟩ := rBytes_complete hr he (n := 1) rfl hone 1
  exact ⟨r', by simp [rU8, hr', leVal], hcons, hrest⟩

/-- A successful `r_u32` consumes the image of the number it returns. -/
lemma rU32_sound {r r' : Reader} {v : ℕ} (hr : r.Ok) (h : rU32 r = (some v, r')) :
    v < 2 ^ 32 ∧ Consumes r (leBytes 4 v) r' := by
  unfold rU32 at h
  cases hb : rBytes r 4 4 with
  | mk res r₁ =>
    rw [hb] at h
    cases res with
    | none => cases h
    | some bs =>
      obtain ⟨hlen, hcons⟩ := rBytes_sound hr hb
      cases h
      have hlt := leVal_lt bs
      rw [hlen] at hlt
      rw [leBytes_leVal_of_length hlen]
      exact ⟨by omega, hcons⟩

/-- `r_u32` returns the number whose image comes next. -/
lemma rU32_complete {r : Reader} (hr : r.Ok) (he : r.error = false) {v : ℕ} (hv : v < 2 ^ 32)
    {rest : List UInt8} (h : r.rest = leBytes 4 v ++ rest) :
    ∃ r', rU32 r = (some v, r') ∧ Consumes r (leBytes 4 v) r' ∧ r'.rest = rest := by
  obtain ⟨r', hr', hcons, hrest⟩ := rBytes_complete hr he (length_leBytes 4 v) h 4
  exact ⟨r', by simp [rU32, hr', leVal_leBytes_of_lt (show v < 256 ^ 4 by omega)], hcons, hrest⟩

/-- A successful `r_u64` consumes the image of the scalar it returns. -/
lemma rU64_sound {r r' : Reader} {v : UInt64} (hr : r.Ok) (h : rU64 r = (some v, r')) :
    Consumes r (leBytes 8 v.toNat) r' := by
  unfold rU64 at h
  cases hb : rBytes r 8 8 with
  | mk res r₁ =>
    rw [hb] at h
    cases res with
    | none => cases h
    | some bs =>
      obtain ⟨hlen, hcons⟩ := rBytes_sound hr hb
      cases h
      have hlt := leVal_lt bs
      rw [hlen] at hlt
      have hval : (UInt64.ofNat (leVal bs)).toNat = leVal bs :=
        UInt64.toNat_ofNat_of_lt' (by simpa [UInt64.size] using hlt)
      rw [hval, leBytes_leVal_of_length hlen]
      exact hcons

/-- `r_u64` returns the scalar whose image comes next. -/
lemma rU64_complete {r : Reader} (hr : r.Ok) (he : r.error = false) {v : UInt64}
    {rest : List UInt8} (h : r.rest = leBytes 8 v.toNat ++ rest) :
    ∃ r', rU64 r = (some v, r') ∧ Consumes r (leBytes 8 v.toNat) r' ∧ r'.rest = rest := by
  obtain ⟨r', hr', hcons, hrest⟩ := rBytes_complete hr he (length_leBytes 8 v.toNat) h 8
  have hv := v.toNat_lt
  refine ⟨r', ?_, hcons, hrest⟩
  simp [rU64, hr', leVal_leBytes_of_lt (show v.toNat < 256 ^ 8 by omega)]

/-- A successful read of a string or data body consumes its length and its bytes. -/
lemma rBlob_sound {r r' : Reader} {cap : ℕ → ℕ} {bs : List UInt8} (hr : r.Ok)
    (h : rBlob r cap = (some bs, r')) :
    bs.length < 2 ^ 32 ∧ Consumes r (leBytes 4 bs.length ++ bs) r' := by
  unfold rBlob at h
  cases hb : rU32 r with
  | mk res r₁ =>
    rw [hb] at h
    cases res with
    | none => cases h
    | some len =>
      obtain ⟨hlt, hcons⟩ := rU32_sound hr hb
      dsimp only at h
      rw [Reader.sizeSub_len_pos (hcons.ok hr)] at h
      split_ifs at h with hn
      · cases h
      · rw [not_lt] at hn
        cases h
        have hlen : (r₁.rest.take len).length = len := List.length_take_of_le hn
        have hbody := consumes_consume (hcons.ok hr) hcons.error
          (List.take_append_drop len r₁.rest).symm (cap len)
        rw [hlen] at hbody ⊢
        exact ⟨hlt, hcons.trans hbody.1⟩

/-- The body of a string or data object is read when it is there. -/
lemma rBlob_complete {r : Reader} (hr : r.Ok) (he : r.error = false) {bs rest : List UInt8}
    (hlt : bs.length < 2 ^ 32) (h : r.rest = leBytes 4 bs.length ++ bs ++ rest) (cap : ℕ → ℕ) :
    ∃ r', rBlob r cap = (some bs, r') ∧ Consumes r (leBytes 4 bs.length ++ bs) r' ∧
      r'.rest = rest := by
  rw [List.append_assoc] at h
  obtain ⟨r₁, hr₁, hcons, hrest⟩ := rU32_complete hr he hlt h
  have hn : ¬sizeSub r₁.buf.len r₁.pos < bs.length := by
    rw [Reader.sizeSub_len_pos (hcons.ok hr), hrest]
    simp
  obtain ⟨hbody, hrest'⟩ := consumes_consume (hcons.ok hr) hcons.error hrest (cap bs.length)
  refine ⟨r₁.consume bs.length (cap bs.length), ?_, hcons.trans hbody, hrest'⟩
  rw [rBlob, hr₁]
  dsimp only
  rw [if_neg hn, hrest, List.take_left]

/-- The sum wraps for the largest length only. -/
lemma toUint32_succ_lt_iff {klen : ℕ} (h : klen < 2 ^ 32) :
    toUint32 (klen + 1) < klen ↔ klen + 1 = 2 ^ 32 := by
  rcases Nat.lt_or_ge (klen + 1) (2 ^ 32) with hlt | hge
  · rw [toUint32_of_lt hlt]
    omega
  · obtain rfl : klen = 2 ^ 32 - 1 := by omega
    decide

/-- A successful read of a key consumes its length and its bytes. -/
lemma rKey_sound {r r' : Reader} {key : List UInt8} (hr : r.Ok)
    (h : rKey r = (some key, r')) :
    key.length + 1 < 2 ^ 32 ∧ Consumes r (leBytes 4 key.length ++ key) r' := by
  have hblob : rBlob r (fun klen => toUint32 (klen + 1)) = (some key, r') ∧
      ¬toUint32 (key.length + 1) < key.length := by
    unfold rKey at h
    unfold rBlob
    cases hb : rU32 r with
    | mk res r₁ =>
      rw [hb] at h
      cases res with
      | none => cases h
      | some klen =>
        have hok := (rU32_sound hr hb).2.ok hr
        dsimp only at h ⊢
        split_ifs at h ⊢ with hn hwrap
        · cases h
        · cases h
        · cases h
          rw [Reader.sizeSub_len_pos hok, not_lt] at hn
          exact ⟨rfl, by rwa [List.length_take_of_le hn]⟩
  obtain ⟨hlt, hcons⟩ := rBlob_sound hr hblob.1
  rw [toUint32_succ_lt_iff hlt] at hblob
  exact ⟨by omega, hcons⟩

/-- A key is read when it is there. -/
lemma rKey_complete {r : Reader} (hr : r.Ok) (he : r.error = false) {key rest : List UInt8}
    (hlt : key.length + 1 < 2 ^ 32) (h : r.rest = leBytes 4 key.length ++ key ++ rest) :
    ∃ r', rKey r = (some key, r') ∧ Consumes r (leBytes 4 key.length ++ key) r' ∧
      r'.rest = rest := by
  rw [List.append_assoc] at h
  obtain ⟨r₁, hr₁, hcons, hrest⟩ := rU32_complete hr he (Nat.lt_of_succ_lt hlt) h
  have hn : ¬sizeSub r₁.buf.len r₁.pos < key.length := by
    rw [Reader.sizeSub_len_pos (hcons.ok hr), hrest]
    simp
  have hwrap : ¬toUint32 (key.length + 1) < key.length := by
    rw [toUint32_succ_lt_iff (Nat.lt_of_succ_lt hlt)]
    omega
  obtain ⟨hbody, hrest'⟩ :=
    consumes_consume (hcons.ok hr) hcons.error hrest (toUint32 (key.length + 1))
  refine ⟨r₁.consume key.length (toUint32 (key.length + 1)), ?_, hcons.trans hbody, hrest'⟩
  rw [rKey, hr₁]
  dsimp only
  rw [if_neg hn, if_neg hwrap, hrest, List.take_left]

/-! ## The decoder accepts exactly the wire trees -/

/-- A leaf is decoded soundly if its body is read soundly. -/
private lemma decodeLeaf_sound {α : Type} {f : α → XpcObject} {res : Option α × Reader}
    {o : XpcObject} {r' : Reader} (h : decodeLeaf f res = some (some o, r')) :
    ∃ v r₁, res = (some v, r₁) ∧ o = f v ∧ r' = r₁.log .create := by
  obtain ⟨v, r₁⟩ := res
  cases v with
  | none => cases h
  | some v =>
    cases h
    exact ⟨v, r₁, rfl, rfl, rfl⟩

/-- A container is decoded soundly if its count and its loop are. -/
private lemma decodeContainer_sound {α : Type} {f : α → XpcObject} {loop : ℕ → Reader → Decoded α}
    {r r' : Reader} {o : XpcObject} (h : decodeContainer f loop r = some (some o, r')) :
    ∃ count r₁ v, rU32 r = (some count, r₁) ∧ loop count (r₁.log .create) = some (some v, r') ∧
      o = f v := by
  unfold decodeContainer at h
  cases hb : rU32 r with
  | mk res r₁ =>
    rw [hb] at h
    cases res with
    | none => cases h
    | some count =>
      simp only [Option.map_eq_some_iff, Prod.mk.injEq] at h
      obtain ⟨⟨v, r₂⟩, hloop, hv, rfl⟩ := h
      obtain ⟨v, rfl, rfl⟩ := hv
      exact ⟨count, r₁, v, rfl, hloop, rfl⟩

/-- What a sound decoder of values must satisfy. -/
private def DecodesTrees (dec : Reader → Decoded XpcObject) : Prop :=
  ∀ r o r', r.Ok → dec r = some (some o, r') →
    ∃ w : Wire, w.Fits ∧ w.value = o ∧ Consumes r w.bytes r'

/-- The loop over items decodes a list of trees.

**Proof sketch.** Induction on the count; the array so far is carried along. -/
private lemma decodeItems_sound {dec : Reader → Decoded XpcObject} (hdec : DecodesTrees dec)
    (count : ℕ) (xs ys : List XpcObject) (r r' : Reader) (hr : r.Ok) (he : r.error = false)
    (h : decodeItems dec count xs r = some (some ys, r')) :
    ∃ ws : List Wire, ws.length = count ∧ Wire.FitsItems ws ∧ ys = xs ++ Wire.valueItems ws ∧
      Consumes r (Wire.bytesItems ws) r' := by
  induction count generalizing xs r with
  | zero =>
    cases h
    exact ⟨[], rfl, trivial, by simp [Wire.valueItems], ⟨rfl, rfl, rfl, he⟩⟩
  | succ count ih =>
    rw [decodeItems] at h
    split at h
    · cases h
    · cases h
    · next v r₁ hv =>
      obtain ⟨w, hw, rfl, hcons⟩ := hdec r v r₁ hr hv
      obtain ⟨ws, hlen, hws, rfl, hcons'⟩ := ih _ r₁ (hcons.ok hr) hcons.error h
      exact ⟨w :: ws, by simp [hlen], ⟨hw, hws⟩, by simp [Wire.valueItems],
        hcons.trans hcons'⟩

/-- The loop over entries decodes a list of keyed trees. -/
private lemma decodeKvs_sound {dec : Reader → Decoded XpcObject} (hdec : DecodesTrees dec)
    (count : ℕ) (es fs : XpcKvs) (r r' : Reader) (hr : r.Ok) (he : r.error = false)
    (h : decodeKvs dec count es r = some (some fs, r')) :
    ∃ ws : WireKvs, ws.length = count ∧ Wire.FitsKvs ws ∧ fs = Wire.valueKvs es ws ∧
      Consumes r (Wire.bytesKvs ws) r' := by
  induction count generalizing es r with
  | zero =>
    cases h
    exact ⟨[], rfl, trivial, rfl, ⟨rfl, rfl, rfl, he⟩⟩
  | succ count ih =>
    rw [decodeKvs] at h
    split at h
    · cases h
    · next key r₁ hkey =>
      obtain ⟨hklen, hcons⟩ := rKey_sound hr hkey
      split at h
      · cases h
      · cases h
      · next v r₂ hv =>
        obtain ⟨w, hw, rfl, hcons'⟩ := hdec r₁ v r₂ (hcons.ok hr) hv
        have hboth := hcons.trans hcons'
        obtain ⟨ws, hlen, hws, rfl, hcons''⟩ := ih _ r₂ (hboth.ok hr) hboth.error h
        exact ⟨(key, w) :: ws, by simp [hlen], ⟨hklen, hw, hws⟩, rfl, hboth.trans hcons''⟩

/-- The body of a value after its tag is decoded soundly.

**Proof sketch.** By cases on the tag; the containers by induction on their counts. -/
private lemma decodeBody_sound {dec : Reader → Decoded XpcObject} (hdec : DecodesTrees dec)
    (t : WireTag) (r r' : Reader) (o : XpcObject) (hr : r.Ok) (he : r.error = false)
    (h : decodeBody dec t r = some (some o, r')) :
    ∃ (w : Wire) (body : List UInt8), w.Fits ∧ w.value = o ∧ w.bytes = t.toByte :: body ∧
      Consumes r body r' := by
  cases t with
  | null =>
    cases h
    exact ⟨.null, [], trivial, rfl, rfl, ⟨rfl, rfl, rfl, he⟩⟩
  | bool =>
    obtain ⟨v, r₁, hv, rfl, rfl⟩ := decodeLeaf_sound h
    exact ⟨.bool v, _, trivial, rfl, rfl, (rU8_sound hr hv).log .create⟩
  | int64 =>
    obtain ⟨v, r₁, hv, rfl, rfl⟩ := decodeLeaf_sound h
    exact ⟨.int64 v, _, trivial, rfl, rfl, (rU64_sound hr hv).log .create⟩
  | uint64 =>
    obtain ⟨v, r₁, hv, rfl, rfl⟩ := decodeLeaf_sound h
    exact ⟨.uint64 v, _, trivial, rfl, rfl, (rU64_sound hr hv).log .create⟩
  | double =>
    obtain ⟨v, r₁, hv, rfl, rfl⟩ := decodeLeaf_sound h
    exact ⟨.double v, _, trivial, rfl, rfl, (rU64_sound hr hv).log .create⟩
  | string =>
    obtain ⟨bs, r₁, hb, rfl, rfl⟩ := decodeLeaf_sound h
    obtain ⟨hlt, hbody⟩ := rBlob_sound hr hb
    exact ⟨.string bs, _, hlt, rfl, rfl, hbody.log .create⟩
  | data =>
    obtain ⟨bs, r₁, hb, rfl, rfl⟩ := decodeLeaf_sound h
    obtain ⟨hlt, hbody⟩ := rBlob_sound hr hb
    exact ⟨.data bs, _, hlt, rfl, rfl, hbody.log .create⟩
  | array =>
    obtain ⟨count, r₁, xs, hc, hloop, rfl⟩ := decodeContainer_sound h
    obtain ⟨hlt, hcount⟩ := rU32_sound hr hc
    have hhead := hcount.log .create
    obtain ⟨ws, rfl, hws, rfl, hitems⟩ :=
      decodeItems_sound hdec count [] xs _ r' (hhead.ok hr) hhead.error hloop
    exact ⟨.array ws, _, ⟨hlt, hws⟩, rfl, rfl, hhead.trans hitems⟩
  | dict =>
    obtain ⟨count, r₁, es, hc, hloop, rfl⟩ := decodeContainer_sound h
    obtain ⟨hlt, hcount⟩ := rU32_sound hr hc
    have hhead := hcount.log .create
    obtain ⟨ws, rfl, hws, rfl, hkvs⟩ :=
      decodeKvs_sound hdec count [] es _ r' (hhead.ok hr) hhead.error hloop
    exact ⟨.dict ws, _, ⟨hlt, hws⟩, rfl, rfl, hhead.trans hkvs⟩

/-- **The decoder is sound**: whatever it accepts begins with the image of a wire tree, exactly
that image is consumed, and the result is the value of the tree.

**Proof sketch.** Induction on the recursion limit; the tag byte selects a case of
`decodeBody_sound`, for which the recursive calls are sound by induction. -/
theorem decode_sound (limit depth : ℕ) (r : Reader) (o : XpcObject) (r' : Reader) (hr : r.Ok)
    (h : decode limit depth r = some (some o, r')) :
    ∃ w : Wire, w.Fits ∧ w.value = o ∧ Consumes r w.bytes r' := by
  induction limit generalizing depth r o r' with
  | zero => cases h
  | succ limit ih =>
    rw [decode] at h
    split at h
    · cases h
    · next tag r₁ htag =>
      have hcons := (rU8_sound (r := r.log _) hr htag).of_log
      split at h
      · cases h
      · next t ht =>
        obtain rfl := WireTag.toByte_of_ofByte ht
        obtain ⟨w, body, hw, hval, hbytes, hbody⟩ :=
          decodeBody_sound (ih (depth + 1)) t r₁ r' o (hcons.ok hr) hcons.error h
        exact ⟨w, hw, hval, by rw [hbytes]; exact hcons.trans hbody⟩

/-! ### Completeness -/

/-- What a complete decoder of values must satisfy on a tree. -/
private def AcceptsTree (dec : Reader → Decoded XpcObject) (w : Wire) : Prop :=
  ∀ r rest, r.Ok → r.error = false → r.rest = w.bytes ++ rest →
    ∃ r', dec r = some (some w.value, r') ∧ Consumes r w.bytes r' ∧ r'.rest = rest

/-- The loop over items accepts the images of trees its decoder accepts. -/
private lemma decodeItems_complete {dec : Reader → Decoded XpcObject} (ws : List Wire)
    (hdec : ∀ w ∈ ws, AcceptsTree dec w) (xs : List XpcObject) (r : Reader) (rest : List UInt8)
    (hr : r.Ok) (he : r.error = false) (h : r.rest = Wire.bytesItems ws ++ rest) :
    ∃ r', decodeItems dec ws.length xs r = some (some (xs ++ Wire.valueItems ws), r') ∧
      Consumes r (Wire.bytesItems ws) r' ∧ r'.rest = rest := by
  induction ws generalizing xs r with
  | nil => exact ⟨r, by simp [decodeItems, Wire.valueItems], ⟨rfl, rfl, rfl, he⟩, h⟩
  | cons w ws ih =>
    rw [Wire.bytesItems, List.append_assoc] at h
    obtain ⟨r₁, hv, hcons, hrest⟩ := hdec w List.mem_cons_self r _ hr he h
    obtain ⟨r', hloop, hcons', hrest'⟩ := ih (fun u hu => hdec u (List.mem_cons_of_mem _ hu))
      (xs ++ [w.value]) r₁ (hcons.ok hr) hcons.error hrest
    refine ⟨r', ?_, hcons.trans hcons', hrest'⟩
    simp [decodeItems, hv, hloop, Wire.valueItems]

/-- The loop over entries accepts the images of keyed trees its decoder accepts. -/
private lemma decodeKvs_complete {dec : Reader → Decoded XpcObject} (ws : WireKvs)
    (hdec : ∀ e ∈ ws, e.1.length + 1 < 2 ^ 32 ∧ AcceptsTree dec e.2) (es : XpcKvs) (r : Reader)
    (rest : List UInt8) (hr : r.Ok) (he : r.error = false)
    (h : r.rest = Wire.bytesKvs ws ++ rest) :
    ∃ r', decodeKvs dec ws.length es r = some (some (Wire.valueKvs es ws), r') ∧
      Consumes r (Wire.bytesKvs ws) r' ∧ r'.rest = rest := by
  induction ws generalizing es r with
  | nil => exact ⟨r, rfl, ⟨rfl, rfl, rfl, he⟩, h⟩
  | cons e ws ih =>
    obtain ⟨key, w⟩ := e
    obtain ⟨hlt, hw⟩ := hdec (key, w) List.mem_cons_self
    rw [Wire.bytesKvs, List.append_assoc, List.append_assoc] at h
    obtain ⟨r₁, hkey, hcons, hrest⟩ := rKey_complete hr he hlt h
    obtain ⟨r₂, hv, hcons', hrest'⟩ := hw r₁ _ (hcons.ok hr) hcons.error hrest
    have hboth := hcons.trans hcons'
    obtain ⟨r', hloop, hcons'', hrest''⟩ := ih (fun f hf => hdec f (List.mem_cons_of_mem _ hf))
      (xpcDictionarySetValue es (CString.ofBytes key) w.value) r₂ (hboth.ok hr) hboth.error hrest'
    refine ⟨r', ?_, hboth.trans hcons'', hrest''⟩
    simp [decodeKvs, hkey, hv, hloop, Wire.valueKvs]

/-- The body of a value after its tag is accepted, when the recursive calls accept the parts.

**Proof sketch.** By cases on the tree; the containers by induction on their lists. -/
private lemma decodeBody_complete {dec : Reader → Decoded XpcObject} (w : Wire) (hw : w.Fits)
    (hitems : ∀ ws, w = .array ws → ∀ u ∈ ws, AcceptsTree dec u)
    (hkvs : ∀ es, w = .dict es → ∀ e ∈ es, AcceptsTree dec e.2) :
    ∃ (t : WireTag) (body : List UInt8), w.bytes = t.toByte :: body ∧
      ∀ r rest, r.Ok → r.error = false → r.rest = body ++ rest →
        ∃ r', decodeBody dec t r = some (some w.value, r') ∧ Consumes r body r' ∧
          r'.rest = rest := by
  cases w with
  | null =>
    refine ⟨.null, [], rfl, fun r rest hr he h => ?_⟩
    exact ⟨r.log .create, rfl, ⟨rfl, rfl, rfl, he⟩, h⟩
  | bool v =>
    refine ⟨.bool, _, rfl, fun r rest hr he h => ?_⟩
    obtain ⟨r₁, hv, hcons, hrest⟩ := rU8_complete hr he h
    exact ⟨r₁.log .create, by simp [decodeBody, hv, decodeLeaf, Wire.value], hcons.log _, hrest⟩
  | int64 v =>
    refine ⟨.int64, _, rfl, fun r rest hr he h => ?_⟩
    obtain ⟨r₁, hv, hcons, hrest⟩ := rU64_complete hr he h
    exact ⟨r₁.log .create, by simp [decodeBody, hv, decodeLeaf, Wire.value], hcons.log _, hrest⟩
  | uint64 v =>
    refine ⟨.uint64, _, rfl, fun r rest hr he h => ?_⟩
    obtain ⟨r₁, hv, hcons, hrest⟩ := rU64_complete hr he h
    exact ⟨r₁.log .create, by simp [decodeBody, hv, decodeLeaf, Wire.value], hcons.log _, hrest⟩
  | double v =>
    refine ⟨.double, _, rfl, fun r rest hr he h => ?_⟩
    obtain ⟨r₁, hv, hcons, hrest⟩ := rU64_complete hr he h
    exact ⟨r₁.log .create, by simp [decodeBody, hv, decodeLeaf, Wire.value], hcons.log _, hrest⟩
  | string bs =>
    refine ⟨.string, _, rfl, fun r rest hr he h => ?_⟩
    obtain ⟨r₁, hv, hcons, hrest⟩ := rBlob_complete hr he hw h fun len => len + 1
    exact ⟨r₁.log .create, by simp [decodeBody, hv, decodeLeaf, Wire.value], hcons.log _, hrest⟩
  | data bs =>
    refine ⟨.data, _, rfl, fun r rest hr he h => ?_⟩
    obtain ⟨r₁, hv, hcons, hrest⟩ := rBlob_complete hr he hw h fun len => max len 1
    exact ⟨r₁.log .create, by simp [decodeBody, hv, decodeLeaf, Wire.value], hcons.log _, hrest⟩
  | array ws =>
    refine ⟨.array, _, rfl, fun r rest hr he h => ?_⟩
    rw [List.append_assoc] at h
    obtain ⟨r₁, hc, hcons, hrest⟩ := rU32_complete hr he hw.1 h
    have hhead := hcons.log .create
    obtain ⟨r', hloop, hcons', hrest'⟩ := decodeItems_complete ws (hitems ws rfl) []
      (r₁.log .create) rest (hhead.ok hr) hhead.error hrest
    refine ⟨r', ?_, hhead.trans hcons', hrest'⟩
    simp [decodeBody, decodeContainer, hc, hloop, Wire.value]
  | dict es =>
    refine ⟨.dict, _, rfl, fun r rest hr he h => ?_⟩
    rw [List.append_assoc] at h
    obtain ⟨r₁, hc, hcons, hrest⟩ := rU32_complete hr he hw.1 h
    have hhead := hcons.log .create
    have hparts := fun e he => And.intro ((Wire.fitsKvs_iff es).mp hw.2 e he).1 (hkvs es rfl e he)
    obtain ⟨r', hloop, hcons', hrest'⟩ := decodeKvs_complete es hparts []
      (r₁.log .create) rest (hhead.ok hr) hhead.error hrest
    refine ⟨r', ?_, hhead.trans hcons', hrest'⟩
    simp [decodeBody, decodeContainer, hc, hloop, Wire.value]

/-- **The decoder is complete**: the image of a wire tree, followed by anything, is accepted
with the tree's value, and exactly the image is consumed. The nesting of the tree is all the
recursion that takes.

**Proof sketch.** Induction on the recursion limit: the tag byte is read, and the parts of a
container are nested less deeply. -/
theorem decode_complete (limit depth : ℕ) (w : Wire) (hw : w.Fits) (hlimit : w.depth < limit)
    (r : Reader) (rest : List UInt8) (hr : r.Ok) (he : r.error = false)
    (h : r.rest = w.bytes ++ rest) :
    ∃ r', decode limit depth r = some (some w.value, r') ∧ Consumes r w.bytes r' ∧
      r'.rest = rest := by
  induction limit generalizing depth w r rest with
  | zero => omega
  | succ limit ih =>
    have hitems : ∀ ws, w = .array ws → ∀ u ∈ ws, AcceptsTree (decode limit (depth + 1)) u := by
      rintro ws rfl u hu
      have := Wire.depth_lt_of_mem_items hu
      exact ih (depth + 1) u ((Wire.fitsItems_iff ws).mp hw.2 u hu) (by
        simp only [Wire.depth] at hlimit; omega)
    have hkvs : ∀ es, w = .dict es → ∀ e ∈ es, AcceptsTree (decode limit (depth + 1)) e.2 := by
      rintro es rfl e he
      have := Wire.depth_lt_of_mem_kvs he
      exact ih (depth + 1) e.2 ((Wire.fitsKvs_iff es).mp hw.2 e he).2 (by
        simp only [Wire.depth] at hlimit; omega)
    obtain ⟨t, body, hbytes, hbody⟩ := decodeBody_complete w hw hitems hkvs
    rw [hbytes, List.cons_append] at h
    obtain ⟨r₁, htag, hcons, hrest⟩ := rU8_complete (r := r.log (.enter depth)) hr he h
    obtain ⟨r', hdec, hcons', hrest'⟩ := hbody r₁ rest (hcons.of_log.ok hr) hcons.error hrest
    refine ⟨r', ?_, by rw [hbytes]; exact hcons.of_log.trans hcons', hrest'⟩
    simp [decode, htag, hdec]

end Asteros.Xpc
