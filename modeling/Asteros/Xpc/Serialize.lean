import Asteros.Lib.LittleEndian
import Asteros.Xpc.Object

set_option autoImplicit false

/-!
# Writing an object graph to the wire

The encoder of `xpc_serialize.c`: a writer over a buffer of fixed capacity with a sticky
overflow flag, and the recursive tag-length-value encoding. A one-byte tag comes first; lengths
and counts are 32-bit, scalars 64-bit, all little-endian.

## Main definitions

* `WireTag` — the `WIRE_TAG_*` constants.
* `Writer`, `wBytes` — `struct writer` and `w_bytes`.
* `encode`, `xpcSerialize` — the encoder.
* `wireBytes` — what the encoder emits when nothing overflows.

## Main results

* `xpcSerialize_eq_some_iff` — serialization succeeds exactly when the wire image fits, and then
  returns it.
-/

namespace Asteros.Xpc

open Asteros.Libc LittleEndian

/-- The `WIRE_TAG_*` enumeration. -/
inductive WireTag where
  | null
  | bool
  | int64
  | uint64
  | double
  | string
  | data
  | array
  | dict
  deriving DecidableEq

/-- The value of a tag; the enumeration starts at 1. -/
def WireTag.toByte : WireTag → UInt8
  | .null => 1
  | .bool => 2
  | .int64 => 3
  | .uint64 => 4
  | .double => 5
  | .string => 6
  | .data => 7
  | .array => 8
  | .dict => 9

/-! ## The writer -/

/-- `struct writer`: the bytes written so far, the capacity and the sticky overflow flag. -/
structure Writer where
  /-- `buf[0 .. len)`. -/
  buf : List UInt8
  /-- The capacity of the buffer. -/
  cap : ℕ
  /-- Set once something did not fit. -/
  overflow : Bool
  /-- The capacity is a `size_t`. -/
  cap_lt : cap < 2 ^ 64
  /-- Nothing was written past the capacity. -/
  len_le : buf.length ≤ cap

/-- `w->len`. -/
def Writer.len (w : Writer) : ℕ := w.buf.length

/-- The room left, which the code computes as `cap - len`, does not wrap. -/
lemma Writer.sizeSub_cap_len (w : Writer) : sizeSub w.cap w.len = w.cap - w.len :=
  sizeSub_of_le w.len_le w.cap_lt

/-- A write no longer than the room left stays within the capacity. -/
lemma Writer.len_add_le (w : Writer) {n : ℕ} (h : ¬sizeSub w.cap w.len < n) :
    w.buf.length + n ≤ w.cap := by
  have := w.len_le
  rw [w.sizeSub_cap_len, Writer.len] at h
  omega

/-- `w_bytes`: append the bytes, or set the overflow flag. -/
def wBytes (w : Writer) (p : List UInt8) : Writer :=
  if w.overflow then w
  else if h : sizeSub w.cap w.len < p.length then { w with overflow := true }
  else
    { w with
      buf := w.buf ++ p
      len_le := by simpa using w.len_add_le h }

/-- `w_u8`. -/
def wU8 (w : Writer) (v : UInt8) : Writer := wBytes w [v]

/-- `w_u32`. -/
def wU32 (w : Writer) (v : ℕ) : Writer := wBytes w (leBytes 4 v)

/-- `w_u64`. -/
def wU64 (w : Writer) (v : UInt64) : Writer := wBytes w (leBytes 8 v.toNat)

/-! ## The encoder -/

mutual
/-- `encode`. Connections and errors have no wire form and set the overflow flag. -/
def encode (w : Writer) : XpcObject → Writer
  | .null => wU8 w WireTag.null.toByte
  | .bool b => wU8 (wU8 w WireTag.bool.toByte) (if b then 1 else 0)
  | .int64 v => wU64 (wU8 w WireTag.int64.toByte) v.toUInt64
  | .uint64 v => wU64 (wU8 w WireTag.uint64.toByte) v
  | .double d => wBytes (wU8 w WireTag.double.toByte) (leBytes 8 d.toNat)
  | .string bs => wBytes (wU32 (wU8 w WireTag.string.toByte) (toUint32 bs.length)) bs
  | .data bs => wBytes (wU32 (wU8 w WireTag.data.toByte) (toUint32 bs.length)) bs
  | .array xs => encodeItems (wU32 (wU8 w WireTag.array.toByte) (toUint32 xs.length)) xs
  | .dictionary es => encodeKvs (wU32 (wU8 w WireTag.dict.toByte) (toUint32 es.length)) es
  | .connection _ => { w with overflow := true }
  | .error _ => { w with overflow := true }

/-- The loop over the items of an array. -/
def encodeItems (w : Writer) : List XpcObject → Writer
  | [] => w
  | x :: xs => encodeItems (encode w x) xs

/-- The loop over the entries of a dictionary; `klen` is the key length as a `uint32_t`. -/
def encodeKvs (w : Writer) : XpcKvs → Writer
  | [] => w
  | (k, v) :: es =>
    let klen := toUint32 k.strlen
    encodeKvs (encode (wBytes (wU32 w klen) (k.bytes.take klen)) v) es
end

/-- `xpc_serialize`: the bytes written, or nothing if the graph did not fit. -/
def xpcSerialize (obj : XpcObject) (cap : ℕ) (hcap : cap < 2 ^ 64) : Option (List UInt8) :=
  let w := encode ⟨[], cap, false, hcap, Nat.zero_le _⟩ obj
  if w.overflow then none else some w.buf

/-! ## What the encoder emits -/

mutual
/-- The wire image of a graph. -/
def wireBytes : XpcObject → List UInt8
  | .null => [WireTag.null.toByte]
  | .bool b => [WireTag.bool.toByte, if b then 1 else 0]
  | .int64 v => WireTag.int64.toByte :: leBytes 8 v.toUInt64.toNat
  | .uint64 v => WireTag.uint64.toByte :: leBytes 8 v.toNat
  | .double d => WireTag.double.toByte :: leBytes 8 d.toNat
  | .string bs => WireTag.string.toByte :: (leBytes 4 (toUint32 bs.length) ++ bs)
  | .data bs => WireTag.data.toByte :: (leBytes 4 (toUint32 bs.length) ++ bs)
  | .array xs => WireTag.array.toByte :: (leBytes 4 (toUint32 xs.length) ++ wireBytesItems xs)
  | .dictionary es => WireTag.dict.toByte :: (leBytes 4 (toUint32 es.length) ++ wireBytesKvs es)
  | .connection _ => []
  | .error _ => []

/-- The wire images of the items, one after the other. -/
def wireBytesItems : List XpcObject → List UInt8
  | [] => []
  | x :: xs => wireBytes x ++ wireBytesItems xs

/-- The wire images of the entries, one after the other. -/
def wireBytesKvs : XpcKvs → List UInt8
  | [] => []
  | (k, v) :: es =>
    leBytes 4 (toUint32 k.strlen) ++ k.bytes.take (toUint32 k.strlen) ++ wireBytes v ++
      wireBytesKvs es
end

/-- The writer `w'` is what `w` becomes when `bs` is written to it, in any number of pieces. -/
structure Writes (w : Writer) (bs : List UInt8) (w' : Writer) : Prop where
  /-- After an overflow nothing changes. -/
  stuck : w.overflow = true → w' = w
  /-- Bytes that fit are appended. -/
  fits : ∀ h : w.len + bs.length ≤ w.cap, w.overflow = false →
    w' = { w with buf := w.buf ++ bs, len_le := by simpa [Writer.len] using h }
  /-- Bytes that do not fit raise the flag. -/
  full : w.cap < w.len + bs.length → w.overflow = false → w'.overflow = true

/-- Writing nothing. -/
lemma Writes.nil (w : Writer) : Writes w [] w where
  stuck _ := rfl
  fits h _ := by simp
  full h _ := by
    have := w.len_le
    simp only [Writer.len, List.length_nil] at h
    omega

/-- One `w_bytes`. -/
lemma writes_wBytes (w : Writer) (p : List UInt8) : Writes w p (wBytes w p) where
  stuck h := by simp [wBytes, h]
  fits h ho := by
    have hn : ¬sizeSub w.cap w.len < p.length := by
      rw [w.sizeSub_cap_len]
      omega
    simp [wBytes, ho, hn]
  full h ho := by
    have hn : sizeSub w.cap w.len < p.length := by
      have := w.len_le
      rw [w.sizeSub_cap_len, Writer.len] at *
      omega
    simp [wBytes, ho, hn]

/-- Two writes in a row write the concatenation. -/
lemma Writes.append {w w₁ w₂ : Writer} {bs cs : List UInt8} (h₁ : Writes w bs w₁)
    (h₂ : Writes w₁ cs w₂) : Writes w (bs ++ cs) w₂ where
  stuck h := by
    obtain rfl := h₁.stuck h
    exact h₂.stuck h
  fits h ho := by
    rw [List.length_append] at h
    obtain rfl := h₁.fits (by omega) ho
    rw [h₂.fits (by simpa [Writer.len, Nat.add_assoc] using h) ho]
    simp
  full h ho := by
    rw [List.length_append] at h
    by_cases hfit : w.len + bs.length ≤ w.cap
    · obtain rfl := h₁.fits hfit ho
      exact h₂.full (by simpa [Writer.len, Nat.add_assoc] using h) ho
    · have hov := h₁.full (by omega) ho
      rw [h₂.stuck hov, hov]

/-- A tag byte followed by a further write. -/
lemma Writes.cons {w w' : Writer} {v : UInt8} {bs : List UInt8} (h : Writes (wU8 w v) bs w') :
    Writes w (v :: bs) w' :=
  (writes_wBytes w [v]).append h

/-- A 32-bit length followed by a further write. -/
lemma Writes.u32 {w w' : Writer} {n : ℕ} {bs : List UInt8} (h : Writes (wU32 w n) bs w') :
    Writes w (leBytes 4 n ++ bs) w' :=
  (writes_wBytes w (leBytes 4 n)).append h

/-- **The encoder writes the wire image** of every graph that has one.

**Proof sketch.** Induction over the graph. Every case is a tag byte followed by the pieces the
code writes; the loops over items and entries are inductions over the lists. -/
lemma writes_encode {o : XpcObject} (ho : o.Serializable) (w : Writer) :
    Writes w (wireBytes o) (encode w o) := by
  induction o using XpcObject.graphInduction generalizing w with
  | null => exact writes_wBytes w _
  | bool b => exact Writes.cons (writes_wBytes _ _)
  | int64 v => exact Writes.cons (writes_wBytes _ _)
  | uint64 v => exact Writes.cons (writes_wBytes _ _)
  | double d => exact Writes.cons (writes_wBytes _ _)
  | string bs => exact Writes.cons (Writes.u32 (writes_wBytes _ _))
  | data bs => exact Writes.cons (Writes.u32 (writes_wBytes _ _))
  | array xs ih =>
    have hitems : ∀ ys ⊆ xs, ∀ w, Writes w (wireBytesItems ys) (encodeItems w ys) := by
      intro ys
      induction ys with
      | nil => exact fun _ w => Writes.nil w
      | cons y ys ihy =>
        intro hys w
        have hy : y ∈ xs := hys List.mem_cons_self
        have hser := (XpcObject.everywhereItems_iff _ xs).mp ho.2 y hy
        exact (ih y hy hser w).append (ihy (fun z hz => hys (List.mem_cons_of_mem _ hz)) _)
    exact Writes.cons (Writes.u32 (hitems xs (fun _ h => h) _))
  | dictionary es ih =>
    have hkvs : ∀ fs ⊆ es, ∀ w, Writes w (wireBytesKvs fs) (encodeKvs w fs) := by
      intro fs
      induction fs with
      | nil => exact fun _ w => Writes.nil w
      | cons f fs ihf =>
        intro hfs w
        have hf : f ∈ es := hfs List.mem_cons_self
        have hser := (XpcObject.everywhereEntries_iff _ es).mp ho.2 f hf
        have hkey : Writes w (leBytes 4 (toUint32 f.1.strlen) ++
            f.1.bytes.take (toUint32 f.1.strlen)) _ := Writes.u32 (writes_wBytes _ _)
        exact (hkey.append (ih f hf hser _)).append
          (ihf (fun z hz => hfs (List.mem_cons_of_mem _ hz)) _)
    exact Writes.cons (Writes.u32 (hkvs es (fun _ h => h) _))
  | connection c => exact absurd ho id
  | error s => exact absurd ho id

/-- **Serialization succeeds exactly when the wire image fits**, and returns the wire image. -/
lemma xpcSerialize_eq_some_iff {o : XpcObject} (ho : o.Serializable) {cap : ℕ}
    (hcap : cap < 2 ^ 64) (out : List UInt8) :
    xpcSerialize o cap hcap = some out ↔ (wireBytes o).length ≤ cap ∧ out = wireBytes o := by
  have hw := writes_encode ho ⟨[], cap, false, hcap, Nat.zero_le _⟩
  by_cases hfit : (wireBytes o).length ≤ cap
  · have := hw.fits (by simpa [Writer.len] using hfit) rfl
    simp [xpcSerialize, this, hfit, eq_comm]
  · have := hw.full (by simpa [Writer.len] using hfit) rfl
    simp [xpcSerialize, this, hfit]

end Asteros.Xpc
