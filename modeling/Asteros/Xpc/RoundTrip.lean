import Asteros.Xpc.Overrun

set_option autoImplicit false

/-!
# Round trips of the XPC wire format

Both directions of `xpc_serialize.c`, through the wire trees: what the encoder writes and the
decoder reads back, and what the decoder accepts and the encoder writes again.

The encoder cuts the length of a dictionary key to 32 bits and then writes that many bytes of
the key, where a string of the same length is refused; a key of `2 ^ 32` bytes or more comes
back as a shorter key. The decoder accepts bytes that no encoder emits: Boolean bytes above 1,
keys with a NUL, repeated keys, and anything at all after the value. And a key of `2 ^ 32 - 1` bytes
overruns its allocation.

## Main results

* `roundTrips_iff` — a graph survives the wire exactly when its keys are shorter than `2 ^ 32`
  bytes, or it is refused.
* `strictlyDecoded_iff` — decoding is strict exactly on the buffers that are canonical, with nothing
  behind the value and no key that is too long.
* `sentOn` — what was received can be sent on.
-/

namespace Asteros.Xpc

open Asteros.Libc

/-! ## From a graph to the wire and back -/

/-- Whatever `xpc_serialize` writes for `o` fits in `cap` bytes, is accepted as a whole by
`xpc_deserialize`, and comes back as a graph with the same scalars, the same array order and the
same dictionaries. -/
def RoundTrips (o : XpcObject) (cap : ℕ) (hcap : cap < 2 ^ 64) : Prop :=
  ∀ out, xpcSerialize o cap hcap = some out →
    out.length ≤ cap ∧ ∃ (hout : out.length < 2 ^ 64) (o' : XpcObject) (r : Reader),
      xpcDeserialize ⟨out, hout⟩ = some (some o', r) ∧ r.pos = out.length ∧ o.Same o'

/-- An accepted buffer begins with the image of a tree whose value is the result. -/
lemma exists_wire_of_xpcDeserialize {b : Buffer} {o : XpcObject} {r : Reader}
    (h : xpcDeserialize b = some (some o, r)) :
    ∃ w : Wire, w.Fits ∧ w.value = o ∧ b.bytes = w.bytes ++ r.rest ∧ r.pos = w.bytes.length := by
  obtain ⟨w, hw, hval, hcons⟩ := decode_sound _ _ _ o r (Nat.zero_le _) h
  exact ⟨w, hw, hval, hcons.rest, by simpa [Reader.start] using hcons.pos⟩

/-- A buffer that begins with the image of a tree is accepted with the tree's value. -/
lemma xpcDeserialize_of_wire {b : Buffer} {w : Wire} {rest : List UInt8} (hw : w.Fits)
    (h : b.bytes = w.bytes ++ rest) :
    ∃ r, xpcDeserialize b = some (some w.value, r) ∧ r.pos = w.bytes.length := by
  have hdepth := w.depth_lt_length
  have hlimit : w.depth < b.len + 1 := by
    rw [Buffer.len, h, List.length_append]
    omega
  obtain ⟨r, hr, hcons, _⟩ :=
    decode_complete _ 0 w hw hlimit (Reader.start b) rest (Nat.zero_le _) rfl h
  exact ⟨r, hr, by simpa [Reader.start] using hcons.pos⟩

/-- A graph that fits and comes back has short keys: everything that comes back has. -/
lemma shortKeys_of_roundTrips {o : XpcObject} {cap : ℕ} {hcap : cap < 2 ^ 64}
    (ho : o.Serializable) (hfit : (wireBytes o).length ≤ cap) (h : RoundTrips o cap hcap) :
    o.ShortKeys := by
  have hser := (xpcSerialize_eq_some_iff ho hcap _).mpr ⟨hfit, rfl⟩
  obtain ⟨_, _, o', r, hdec, _, hsame⟩ := h _ hser
  obtain ⟨w, hw, rfl, _, _⟩ := exists_wire_of_xpcDeserialize hdec
  exact (Wire.shortKeys_value hw).of_same hsame.symm

/-- **A graph survives the wire exactly when its keys are short or it is refused.** For every
graph of the serializable types whose dictionaries have distinct keys, as find-or-insert builds
them, and every capacity below `2 ^ 32`.

**Proof sketch.** The bytes written are the image of the graph's tree (`bytes_toWire`), which
fits since it is shorter than `2 ^ 32`; the decoder accepts it (`decode_complete`), and with
short keys its value is the graph up to entry order (`same_value_toWire`). Conversely the keys
of anything decoded are short. -/
theorem roundTrips_iff {o : XpcObject} {cap : ℕ} (hcap : cap < 2 ^ 32) (ho : o.Serializable)
    (hd : o.DistinctKeys) :
    RoundTrips o cap (lt_size_of_lt_uint32 hcap) ↔
      o.ShortKeys ∨ cap < (wireBytes o).length := by
  constructor
  · intro h
    by_cases hfit : (wireBytes o).length ≤ cap
    · exact Or.inl (shortKeys_of_roundTrips ho hfit h)
    · exact Or.inr (not_le.mp hfit)
  · intro h out hout
    obtain ⟨hfit, rfl⟩ := (xpcSerialize_eq_some_iff ho _ out).mp hout
    rcases h with hs | hlt
    · have hbytes := bytes_toWire ho
      have hw : (toWire o).Fits := Wire.fits_of_length_lt _ (by rw [hbytes]; omega)
      have hlen : (wireBytes o).length < 2 ^ 64 := by omega
      have hbuf : (⟨wireBytes o, hlen⟩ : Buffer).bytes = (toWire o).bytes ++ [] := by
        rw [hbytes, List.append_nil]
      obtain ⟨r, hr, hpos⟩ := xpcDeserialize_of_wire hw hbuf
      exact ⟨hfit, hlen, _, r, hr, by rw [hpos, hbytes], same_value_toWire ho hd hs⟩
    · omega

/-- A graph with a nested dictionary survives the wire in 64 bytes. -/
theorem roundTrips_nested :
    RoundTrips (.array [.int64 (-1), .dictionary [(CString.ofBytes [107], .bool true)]]) 64
      (by decide) :=
  (roundTrips_iff (by decide)
    (by simp [XpcObject.Serializable, XpcObject.Everywhere, XpcObject.EverywhereItems,
      XpcObject.EverywhereEntries, XpcObject.SerializableAt])
    (by simp [XpcObject.DistinctKeys, XpcObject.Everywhere, XpcObject.EverywhereItems,
      XpcObject.EverywhereEntries, XpcObject.DistinctKeysAt, keys])).mpr
    (Or.inl (by
      simp [XpcObject.ShortKeys, XpcObject.Everywhere, XpcObject.EverywhereItems,
        XpcObject.EverywhereEntries, XpcObject.ShortKeysAt, keys, CString.strlen,
        CString.ofBytes]))

/-- The key of `2 ^ 32` bytes `a`. -/
def longKey : CString where
  bytes := List.replicate (2 ^ 32) 97
  nulFree h := absurd (List.eq_of_mem_replicate h) (by decide)

/-- The dictionary that maps the long key to null. -/
def longKeyGraph : XpcObject := .dictionary [(longKey, .null)]

/-- **A key of `2 ^ 32` bytes does not survive the wire**: the dictionary is written into 100
bytes without an error, and does not come back. -/
theorem not_roundTrips_longKeyGraph :
    longKeyGraph.Serializable ∧ longKeyGraph.DistinctKeys ∧
      (∃ out, xpcSerialize longKeyGraph 100 (by decide) = some out) ∧
      ¬RoundTrips longKeyGraph 100 (by decide) := by
  have hser : longKeyGraph.Serializable := ⟨trivial, trivial, trivial⟩
  have hklen : longKey.strlen = 2 ^ 32 := List.length_replicate
  have hcut : toUint32 longKey.strlen = 0 := by rw [hklen]; rfl
  have hfit : (wireBytes longKeyGraph).length ≤ 100 := by
    simp [longKeyGraph, wireBytes, wireBytesKvs, hcut]
  refine ⟨hser, ⟨by simp [XpcObject.DistinctKeysAt, keys], trivial, trivial⟩,
    ⟨_, (xpcSerialize_eq_some_iff hser _ _).mpr ⟨hfit, rfl⟩⟩, fun h => ?_⟩
  have hshort := (shortKeys_of_roundTrips hser hfit h).1 longKey (by simp [keys])
  omega

/-! ## From the wire to a graph and back -/

/-- The buffer `b`, decoded to `o` with the reader left at `r`, is exactly an encoding of `o`:
the reader is at the end of the buffer, and `xpc_serialize` with enough capacity gives the
buffer back for a graph that is `o` up to the order of the entries in each dictionary. -/
def StrictlyDecoded (b : Buffer) (o : XpcObject) (r : Reader) : Prop :=
  r.pos = b.len ∧ ∃ o' : XpcObject, o'.Same o ∧
    ∀ cap (hcap : cap < 2 ^ 64), b.len ≤ cap → xpcSerialize o' cap hcap = some b.bytes

/-- The buffer is decoded strictly: no copy overruns its allocation, and if it is accepted, it is
exactly an encoding of the result. -/
def DecodesStrictly (b : Buffer) : Prop :=
  ∃ res r, xpcDeserialize b = some (res, r) ∧ CopiesFit r.trace ∧
    ∀ o, res = some o → StrictlyDecoded b o r

/-- No key of `2 ^ 32 - 1` bytes is where a key is read; and however the buffer is read as a
message, nothing follows the message, its Boolean bytes are 0 or 1, and the keys of each dictionary
are NUL-free and pairwise distinct. -/
def CanonicalMessage (b : Buffer) : Prop :=
  ¬Overlong b.bytes ∧ ∀ (w : Wire) (rest : List UInt8), w.Fits → b.bytes = w.bytes ++ rest →
    rest = [] ∧ w.Canonical

/-- The decoder of a whole buffer ends, and overruns an allocation on the overlong buffers. -/
lemma xpcDeserialize_splits (b : Buffer) : ∃ res r, xpcDeserialize b = some (res, r) ∧
    (CopiesFit r.trace ∧ ¬Overlong b.bytes ∨
      ¬CopiesFit r.trace ∧ res = none ∧ Overlong b.bytes) := by
  have hlimit : (Reader.start b).buf.len - (Reader.start b).pos < b.len + 1 := Nat.lt_succ_self _
  obtain ⟨res, r, hdec, -⟩ := decode_spent (b.len + 1) 0 (Reader.start b) (Nat.zero_le _) hlimit
  obtain ⟨new, htrace, hsplit⟩ :=
    decode_splits (b.len + 1) 0 (Reader.start b) res r (Nat.zero_le _) rfl hlimit hdec
  obtain rfl : new = r.trace := (htrace.trans (List.append_nil new)).symm
  exact ⟨res, r, hdec, hsplit⟩

/-- The image of a canonical tree is strictly decoded. -/
lemma strictlyDecoded_of_canonical {b : Buffer} {w : Wire} {r : Reader} (hw : w.Fits)
    (hc : w.Canonical) (hb : b.bytes = w.bytes) (hpos : r.pos = w.bytes.length) :
    StrictlyDecoded b w.value r := by
  have hser := Wire.serializable_toObject hw hc
  have htree := Wire.toWire_toObject hw hc
  have hsame := same_value_toWire hser (Wire.distinctKeys_toObject hw hc)
    (Wire.shortKeys_toObject hw hc)
  rw [htree] at hsame
  refine ⟨by rw [hpos, Buffer.len, hb], w.toObject, hsame, fun cap hcap hle => ?_⟩
  have hbytes : wireBytes w.toObject = b.bytes := by rw [← bytes_toWire hser, htree, hb]
  exact (xpcSerialize_eq_some_iff hser hcap _).mpr ⟨by rw [hbytes]; exact hle, hbytes.symm⟩

/-- A tree whose image, with what follows it, is strictly decoded is canonical, and nothing
follows it.

**Proof sketch.** The graph that is serialized back to the buffer has distinct short keys, like
everything decoded, so its own tree is canonical and has the whole buffer for its image; the
format is unambiguous. -/
lemma canonical_of_strictlyDecoded {b : Buffer} {w : Wire} {rest : List UInt8} {r : Reader}
    (hw : w.Fits) (hb : b.bytes = w.bytes ++ rest) (h : StrictlyDecoded b w.value r) :
    rest = [] ∧ w.Canonical := by
  obtain ⟨_, o', hsame, hser⟩ := h
  have ho := (Wire.serializable_value hw).of_same hsame.symm
  have hd := (Wire.distinctKeys_value hw).of_same hsame.symm
  have hs := (Wire.shortKeys_value hw).of_same hsame.symm
  have hsmall := (Wire.small_value hw).of_same hsame.symm
  obtain ⟨_, hbytes⟩ :=
    (xpcSerialize_eq_some_iff ho b.size_lt b.bytes).mp (hser b.len b.size_lt le_rfl)
  rw [← bytes_toWire ho, hb, ← List.append_nil (toWire o').bytes] at hbytes
  obtain ⟨rfl, rfl⟩ := Wire.bytes_append_inj hw (fits_toWire hsmall) hbytes
  exact ⟨rfl, canonical_toWire hd hs⟩

/-- **Decoding is strict exactly on the canonical messages**, for every buffer of every length: it
overruns no allocation, and what it accepts is an encoding of the result, exactly if no key of
`2 ^ 32 - 1` bytes is there where one is read and the buffer holds one message at most, with Boolean
bytes 0 or 1 and with NUL-free and distinct keys.

**Proof sketch.** The decoder accepts exactly the buffers that begin with the image of a tree
(`decode_sound`, `decode_complete`); the two lemmas above are the two directions. The copies are those
of `decode_splits`. -/
theorem strictlyDecoded_iff (b : Buffer) : DecodesStrictly b ↔ CanonicalMessage b := by
  obtain ⟨res, r, hdec, hsplit⟩ := xpcDeserialize_splits b
  constructor
  · rintro ⟨res', r', hdec', hfit, hstrict⟩
    obtain ⟨rfl, rfl⟩ := Prod.mk.inj (Option.some.inj (hdec.symm.trans hdec'))
    refine ⟨fun hover => ?_, fun w rest hw hb => ?_⟩
    · rcases hsplit with ⟨-, hnot⟩ | ⟨hnot, -⟩
      · exact hnot hover
      · exact hnot hfit
    · obtain ⟨r', hr', -⟩ := xpcDeserialize_of_wire hw hb
      obtain ⟨rfl, rfl⟩ := Prod.mk.inj (Option.some.inj (hdec.symm.trans hr'))
      exact canonical_of_strictlyDecoded hw hb (hstrict _ rfl)
  · rintro ⟨hnot, hcanonical⟩
    refine ⟨res, r, hdec, ?_, ?_⟩
    · rcases hsplit with ⟨hfit, -⟩ | ⟨-, -, hover⟩
      · exact hfit
      · exact absurd hover hnot
    · rintro o rfl
      obtain ⟨w, hw, rfl, hb, hpos⟩ := exists_wire_of_xpcDeserialize hdec
      obtain ⟨hrest, hc⟩ := hcanonical w r.rest hw hb
      exact strictlyDecoded_of_canonical hw hc (by rw [hb, hrest, List.append_nil]) hpos

/-- The message `true` with a Boolean byte of 2. -/
def looseBool : Buffer := ⟨[2, 2], by decide⟩

/-- **The decoder is not strict**: the two bytes `02 02` are accepted as `true`, which is not
what `xpc_serialize` writes for `true`. -/
theorem not_strictlyDecoded_looseBool :
    (∃ o r, xpcDeserialize looseBool = some (some o, r) ∧ ¬StrictlyDecoded looseBool o r) ∧
      ¬DecodesStrictly looseBool := by
  have hw : (Wire.bool 2).Fits := trivial
  have hb : looseBool.bytes = (Wire.bool 2).bytes ++ [] := rfl
  obtain ⟨r, hr, _⟩ := xpcDeserialize_of_wire hw hb
  have hloose : ¬StrictlyDecoded looseBool (Wire.bool 2).value r := fun h =>
    absurd (canonical_of_strictlyDecoded hw hb h).2 (by simp [Wire.Canonical])
  refine ⟨⟨_, r, hr, hloose⟩, ?_⟩
  rintro ⟨res, r', hr', -, hstrict⟩
  obtain ⟨rfl, rfl⟩ := Prod.mk.inj (Option.some.inj (hr.symm.trans hr'))
  exact hloose (hstrict _ rfl)

/-- **What was received can be sent on**, also from a buffer that is no encoding: a buffer below 4 GiB
is decoded without a copy beyond its allocation, and if there is room for the graph that came out, it
is written, and whatever is written for it is accepted as a whole and gives the same graph once more.

**Proof sketch.** A graph that comes out has distinct and short keys and is small enough for its tree
to fit, whatever the buffer repeats or puts behind it. -/
theorem sentOn {b : Buffer} {o : XpcObject} {r : Reader} (hb : b.len < 2 ^ 32)
    (h : xpcDeserialize b = some (some o, r)) {cap : ℕ} (hcap : cap < 2 ^ 64) :
    CopiesFit r.trace ∧ ((wireBytes o).length ≤ cap → ∃ out, xpcSerialize o cap hcap = some out) ∧
      RoundTrips o cap hcap := by
  have hfit : CopiesFit r.trace := by
    obtain ⟨res, r', hdec, ⟨hfit, -⟩ | ⟨-, -, hover⟩⟩ := xpcDeserialize_splits b
    · obtain ⟨-, rfl⟩ := Prod.mk.inj (Option.some.inj (hdec.symm.trans h))
      exact hfit
    · exact absurd hover.le_length (not_le.mpr hb)
  obtain ⟨w, hw, rfl, -, -⟩ := exists_wire_of_xpcDeserialize h
  have ho := Wire.serializable_value hw
  have hbytes := bytes_toWire ho
  refine ⟨hfit, fun hroom => ⟨_, (xpcSerialize_eq_some_iff ho hcap _).2 ⟨hroom, rfl⟩⟩,
    fun out hout => ?_⟩
  obtain ⟨hroom, rfl⟩ := (xpcSerialize_eq_some_iff ho hcap out).1 hout
  have hlen : (wireBytes w.value).length < 2 ^ 64 := by omega
  have hbuf : (⟨wireBytes w.value, hlen⟩ : Buffer).bytes = (toWire w.value).bytes ++ [] := by
    rw [hbytes, List.append_nil]
  obtain ⟨r', hr', hpos⟩ := xpcDeserialize_of_wire (fits_toWire (Wire.small_value hw)) hbuf
  exact ⟨hroom, hlen, _, r', hr', by rw [hpos, hbytes],
    same_value_toWire ho (Wire.distinctKeys_value hw) (Wire.shortKeys_value hw)⟩

/-- The message `true` with a Boolean byte of 2 is sent on. -/
theorem sentOn_looseBool : RoundTrips (Wire.bool 2).value 16 (by decide) := by
  have hbuf : looseBool.bytes = (Wire.bool 2).bytes ++ [] := rfl
  obtain ⟨r, hr, -⟩ := xpcDeserialize_of_wire (w := Wire.bool 2) trivial hbuf
  exact (sentOn (by decide) hr (by decide)).2.2

end Asteros.Xpc
