import Asteros.Xpc.Serialize
import Mathlib.Data.List.Nodup

set_option autoImplicit false

/-!
# The wire format as a grammar

A wire tree is what a well-formed message says before any of it is interpreted: the Boolean
byte as it stands, the entries of a dictionary in wire order with their keys as raw bytes. The
decoder accepts exactly the images of wire trees and returns their values; the encoder emits
the images of canonical wire trees. Both statements are proved elsewhere against the code; this
file is about the trees themselves.

## Main definitions

* `Wire` — wire trees; `Wire.bytes` their image; `Wire.value` the object they stand for, with
  dictionaries built by find-or-insert.
* `Wire.Fits` — lengths and counts are 32-bit.
* `Wire.Canonical` — Boolean bytes are 0 or 1, and the keys of each dictionary are NUL-free and
  distinct.
* `toWire`, `Wire.toObject` — the canonical tree of a graph and back.

## Main results

* `bytes_toWire` — the image of the tree of a graph is the graph's wire image.
* `same_value_toWire` — the tree of a graph stands for the graph, up to entry order.
* `Wire.toWire_toObject` — a canonical tree is the tree of its object.
-/

namespace Asteros.Xpc

open Asteros.Libc LittleEndian

/-- A wire tree. -/
inductive Wire where
  | null
  | bool (v : UInt8)
  | int64 (v : UInt64)
  | uint64 (v : UInt64)
  | double (v : UInt64)
  | string (bs : List UInt8)
  | data (bs : List UInt8)
  | array (ws : List Wire)
  | dict (es : List (List UInt8 × Wire))

/-- The entries of a dictionary on the wire. -/
abbrev WireKvs := List (List UInt8 × Wire)

namespace Wire

/-- Induction over a wire tree. -/
lemma treeInduction {P : Wire → Prop} (null : P .null) (bool : ∀ v, P (.bool v))
    (int64 : ∀ v, P (.int64 v)) (uint64 : ∀ v, P (.uint64 v)) (double : ∀ v, P (.double v))
    (string : ∀ bs, P (.string bs)) (data : ∀ bs, P (.data bs))
    (array : ∀ ws, (∀ w ∈ ws, P w) → P (.array ws))
    (dict : ∀ es : WireKvs, (∀ e ∈ es, P e.2) → P (.dict es)) (w : Wire) : P w := by
  refine @Wire.rec P (fun ws => ∀ w ∈ ws, P w) (fun es => ∀ e ∈ es, P e.2) (fun e => P e.2) null
    bool int64 uint64 double string data array dict ?_ ?_ ?_ ?_ ?_ w
  · simp
  · intro x xs hx hxs y hy
    rcases List.mem_cons.mp hy with rfl | hy
    · exact hx
    · exact hxs y hy
  · simp
  · intro e es he hes f hf
    rcases List.mem_cons.mp hf with rfl | hf
    · exact he
    · exact hes f hf
  · exact fun _ _ h => h

mutual
/-- The byte image of a tree. -/
def bytes : Wire → List UInt8
  | .null => [WireTag.null.toByte]
  | .bool v => [WireTag.bool.toByte, v]
  | .int64 v => WireTag.int64.toByte :: leBytes 8 v.toNat
  | .uint64 v => WireTag.uint64.toByte :: leBytes 8 v.toNat
  | .double v => WireTag.double.toByte :: leBytes 8 v.toNat
  | .string bs => WireTag.string.toByte :: (leBytes 4 bs.length ++ bs)
  | .data bs => WireTag.data.toByte :: (leBytes 4 bs.length ++ bs)
  | .array ws => WireTag.array.toByte :: (leBytes 4 ws.length ++ bytesItems ws)
  | .dict es => WireTag.dict.toByte :: (leBytes 4 es.length ++ bytesKvs es)

/-- The images of the items. -/
def bytesItems : List Wire → List UInt8
  | [] => []
  | w :: ws => bytes w ++ bytesItems ws

/-- The images of the entries: key length, key, value. -/
def bytesKvs : WireKvs → List UInt8
  | [] => []
  | (k, w) :: es => leBytes 4 k.length ++ k ++ bytes w ++ bytesKvs es
end

mutual
/-- Every length and every count fits in 32 bits, that of a key with the NUL behind it. -/
def Fits : Wire → Prop
  | .string bs => bs.length < 2 ^ 32
  | .data bs => bs.length < 2 ^ 32
  | .array ws => ws.length < 2 ^ 32 ∧ FitsItems ws
  | .dict es => es.length < 2 ^ 32 ∧ FitsKvs es
  | _ => True

/-- Every item fits. -/
def FitsItems : List Wire → Prop
  | [] => True
  | w :: ws => Fits w ∧ FitsItems ws

/-- Every key and every value fits. -/
def FitsKvs : WireKvs → Prop
  | [] => True
  | (k, w) :: es => k.length + 1 < 2 ^ 32 ∧ Fits w ∧ FitsKvs es
end

mutual
/-- The object a tree stands for: any Boolean byte but 0 is true, a key ends at its first NUL,
and a later entry overwrites an earlier one with an equal key. -/
def value : Wire → XpcObject
  | .null => .null
  | .bool v => .bool (v != 0)
  | .int64 v => .int64 v.toInt64
  | .uint64 v => .uint64 v
  | .double v => .double v
  | .string bs => .string bs
  | .data bs => .data bs
  | .array ws => .array (valueItems ws)
  | .dict es => .dictionary (valueKvs [] es)

/-- The objects of the items. -/
def valueItems : List Wire → List XpcObject
  | [] => []
  | w :: ws => value w :: valueItems ws

/-- The dictionary `acc` after the entries have been set one by one. -/
def valueKvs (acc : XpcKvs) : WireKvs → XpcKvs
  | [] => acc
  | (k, w) :: es => valueKvs (xpcDictionarySetValue acc (CString.ofBytes k) (value w)) es
end

mutual
/-- The tree is one the encoder can emit: Boolean bytes are 0 or 1, and in each dictionary the
keys are NUL-free and pairwise distinct. -/
def Canonical : Wire → Prop
  | .bool v => v = 0 ∨ v = 1
  | .array ws => CanonicalItems ws
  | .dict es => (∀ k ∈ es.map Prod.fst, 0 ∉ k) ∧ (es.map Prod.fst).Nodup ∧ CanonicalKvs es
  | _ => True

/-- Every item is canonical. -/
def CanonicalItems : List Wire → Prop
  | [] => True
  | w :: ws => Canonical w ∧ CanonicalItems ws

/-- Every value is canonical. -/
def CanonicalKvs : WireKvs → Prop
  | [] => True
  | (_, w) :: es => Canonical w ∧ CanonicalKvs es
end

mutual
/-- The nesting depth of a tree below its root. -/
def depth : Wire → ℕ
  | .array ws => depthItems ws
  | .dict es => depthKvs es
  | _ => 0

/-- One more than the depth of the deepest item. -/
def depthItems : List Wire → ℕ
  | [] => 0
  | w :: ws => max (depth w + 1) (depthItems ws)

/-- One more than the depth of the deepest value. -/
def depthKvs : WireKvs → ℕ
  | [] => 0
  | (_, w) :: es => max (depth w + 1) (depthKvs es)
end

mutual
/-- The object of a canonical tree with its dictionaries in wire order. -/
def toObject : Wire → XpcObject
  | .null => .null
  | .bool v => .bool (v != 0)
  | .int64 v => .int64 v.toInt64
  | .uint64 v => .uint64 v
  | .double v => .double v
  | .string bs => .string bs
  | .data bs => .data bs
  | .array ws => .array (toObjectItems ws)
  | .dict es => .dictionary (toObjectKvs es)

/-- The objects of the items. -/
def toObjectItems : List Wire → List XpcObject
  | [] => []
  | w :: ws => toObject w :: toObjectItems ws

/-- The entries in wire order. -/
def toObjectKvs : WireKvs → XpcKvs
  | [] => []
  | (k, w) :: es => (CString.ofBytes k, toObject w) :: toObjectKvs es
end

/-! ## Size and depth -/

/-- A tree has at least its tag byte. -/
lemma length_bytes_pos (w : Wire) : 0 < w.bytes.length := by
  cases w <;> simp [bytes]

/-- A tree is nested less deeply than its image is long.

**Proof sketch.** Every level of nesting costs at least the tag byte of its container. -/
lemma depth_lt_length (w : Wire) : w.depth < w.bytes.length := by
  induction w using treeInduction with
  | array ws ih =>
    have hitems : ∀ us ⊆ ws, depthItems us ≤ (bytesItems us).length := by
      intro us
      induction us with
      | nil => simp [depthItems]
      | cons u us ihu =>
        intro hus
        have hu := ih u (hus List.mem_cons_self)
        have hrest := ihu fun v hv => hus (List.mem_cons_of_mem _ hv)
        simp only [depthItems, bytesItems, List.length_append]
        omega
    have := hitems ws fun _ h => h
    simp only [depth, bytes, List.length_cons, List.length_append]
    omega
  | dict es ih =>
    have hkvs : ∀ fs ⊆ es, depthKvs fs ≤ (bytesKvs fs).length := by
      intro fs
      induction fs with
      | nil => simp [depthKvs]
      | cons f fs ihf =>
        intro hfs
        have hf := ih f (hfs List.mem_cons_self)
        have hrest := ihf fun v hv => hfs (List.mem_cons_of_mem _ hv)
        simp only [depthKvs, bytesKvs, List.length_append]
        omega
    have := hkvs es fun _ h => h
    simp only [depth, bytes, List.length_cons, List.length_append]
    omega
  | _ => simp [depth, bytes]

/-- An item is nested less deeply than the list of items. -/
lemma depth_lt_of_mem_items {w : Wire} {ws : List Wire} (h : w ∈ ws) :
    w.depth < depthItems ws := by
  induction ws with
  | nil => cases h
  | cons u us ih =>
    rw [depthItems]
    rcases List.mem_cons.mp h with rfl | h
    · omega
    · have := ih h
      omega

/-- A value is nested less deeply than the list of entries. -/
lemma depth_lt_of_mem_kvs {e : List UInt8 × Wire} {es : WireKvs} (h : e ∈ es) :
    e.2.depth < depthKvs es := by
  induction es with
  | nil => cases h
  | cons f fs ih =>
    rw [depthKvs]
    rcases List.mem_cons.mp h with rfl | h
    · omega
    · have := ih h
      omega

end Wire

/-! ## The tree of a graph -/

mutual
/-- The tree the encoder writes for a graph. Connections and errors have none. -/
def toWire : XpcObject → Wire
  | .null => .null
  | .bool b => .bool (if b then 1 else 0)
  | .int64 v => .int64 v.toUInt64
  | .uint64 v => .uint64 v
  | .double v => .double v
  | .string bs => .string bs
  | .data bs => .data bs
  | .array xs => .array (toWireItems xs)
  | .dictionary es => .dict (toWireKvs es)
  | .connection _ => .null
  | .error _ => .null

/-- The trees of the items. -/
def toWireItems : List XpcObject → List Wire
  | [] => []
  | x :: xs => toWire x :: toWireItems xs

/-- The trees of the entries; the key is what is left of it after `klen` was cut to 32 bits. -/
def toWireKvs : XpcKvs → WireKvs
  | [] => []
  | (k, v) :: es => (k.bytes.take (toUint32 k.strlen), toWire v) :: toWireKvs es
end

namespace Wire

/-! ## Membership forms -/

/-- Items fit exactly when each does. -/
lemma fitsItems_iff (ws : List Wire) : FitsItems ws ↔ ∀ w ∈ ws, w.Fits := by
  induction ws with
  | nil => simp [FitsItems]
  | cons w ws ih => simp [FitsItems, ih]

/-- Entries fit exactly when each key and each value does. -/
lemma fitsKvs_iff (es : WireKvs) :
    FitsKvs es ↔ ∀ e ∈ es, e.1.length + 1 < 2 ^ 32 ∧ e.2.Fits := by
  induction es with
  | nil => simp [FitsKvs]
  | cons e es ih => simp [FitsKvs, ih, and_assoc]

/-- Items are canonical exactly when each is. -/
lemma canonicalItems_iff (ws : List Wire) : CanonicalItems ws ↔ ∀ w ∈ ws, w.Canonical := by
  induction ws with
  | nil => simp [CanonicalItems]
  | cons w ws ih => simp [CanonicalItems, ih]

/-- Entries are canonical exactly when each value is. -/
lemma canonicalKvs_iff (es : WireKvs) : CanonicalKvs es ↔ ∀ e ∈ es, e.2.Canonical := by
  induction es with
  | nil => simp [CanonicalKvs]
  | cons e es ih => simp [CanonicalKvs, ih]

/-- The objects of the items are the items' objects. -/
lemma valueItems_eq_map (ws : List Wire) : valueItems ws = ws.map value := by
  induction ws with
  | nil => rfl
  | cons w ws ih => simp [valueItems, ih]

/-- The objects of the items are the items' objects. -/
lemma toObjectItems_eq_map (ws : List Wire) : toObjectItems ws = ws.map toObject := by
  induction ws with
  | nil => rfl
  | cons w ws ih => simp [toObjectItems, ih]

/-- The entries in wire order, one by one. -/
lemma toObjectKvs_eq_map (es : WireKvs) :
    toObjectKvs es = es.map fun e => (CString.ofBytes e.1, e.2.toObject) := by
  induction es with
  | nil => rfl
  | cons e es ih => simp [toObjectKvs, ih]

/-- An image shorter than `2 ^ 32` bytes is the image of a tree whose lengths fit.

**Proof sketch.** Every counted thing contributes at least a byte to the image. -/
lemma fits_of_length_lt (w : Wire) (h : w.bytes.length < 2 ^ 32) : w.Fits := by
  induction w using treeInduction with
  | array ws ih =>
    have hitems : ∀ us : List Wire, us.length ≤ (bytesItems us).length ∧
        ∀ u ∈ us, u.bytes.length ≤ (bytesItems us).length := by
      intro us
      induction us with
      | nil => simp
      | cons u us ihu =>
        have hu := u.length_bytes_pos
        simp only [bytesItems, List.length_append, List.length_cons, List.mem_cons,
          forall_eq_or_imp]
        exact ⟨by omega, by omega, fun v hv => by have := ihu.2 v hv; omega⟩
    simp only [bytes, List.length_cons, List.length_append] at h
    have hws := hitems ws
    refine ⟨by omega, (fitsItems_iff ws).mpr fun w hw => ih w hw ?_⟩
    have := hws.2 w hw
    omega
  | dict es ih =>
    have hkvs : ∀ fs : WireKvs, fs.length ≤ (bytesKvs fs).length ∧
        ∀ f ∈ fs, f.1.length + f.2.bytes.length ≤ (bytesKvs fs).length := by
      intro fs
      induction fs with
      | nil => simp
      | cons f fs ihf =>
        have hf := f.2.length_bytes_pos
        simp only [bytesKvs, List.length_append, List.length_cons, List.mem_cons,
          forall_eq_or_imp]
        exact ⟨by omega, by omega, fun v hv => by have := ihf.2 v hv; omega⟩
    simp only [bytes, List.length_cons, List.length_append] at h
    have hes := hkvs es
    refine ⟨by omega, (fitsKvs_iff es).mpr fun e he => ?_⟩
    have := hes.2 e he
    exact ⟨by omega, ih e he (by omega)⟩
  | string bs => simp only [bytes, List.length_cons, List.length_append] at h; simp only [Fits]; omega
  | data bs => simp only [bytes, List.length_cons, List.length_append] at h; simp only [Fits]; omega
  | _ => trivial

/-! ## Unambiguity -/

/-- A 32-bit length field determines the length and what follows it. -/
lemma length_field_inj {m n : ℕ} (hm : m < 2 ^ 32) (hn : n < 2 ^ 32) {r s : List UInt8}
    (h : leBytes 4 m ++ r = leBytes 4 n ++ s) : m = n ∧ r = s := by
  obtain ⟨hb, hr⟩ := List.append_inj h (by simp)
  exact ⟨leBytes_injOn (by omega) (by omega) hb, hr⟩

/-- A 64-bit scalar field determines the scalar and what follows it. -/
private lemma scalar_field_inj {v w : UInt64} {r s : List UInt8}
    (h : leBytes 8 v.toNat ++ r = leBytes 8 w.toNat ++ s) : v = w ∧ r = s := by
  obtain ⟨hb, hr⟩ := List.append_inj h (by simp)
  have hv := v.toNat_lt
  have hw := w.toNat_lt
  exact ⟨UInt64.toNat_inj.mp (leBytes_injOn (by omega) (by omega) hb), hr⟩

/-- **The format is unambiguous**: two trees whose images begin the same byte sequence are
equal, and so is what follows them.

**Proof sketch.** Induction over the first tree. The tag byte fixes the constructor, the length
field fixes how many bytes, items or entries follow, and each of those is fixed by induction. -/
lemma bytes_append_inj {w w' : Wire} (hw : w.Fits) (hw' : w'.Fits) {r r' : List UInt8}
    (h : w.bytes ++ r = w'.bytes ++ r') : w = w' ∧ r = r' := by
  induction w using treeInduction generalizing w' r r' with
  | array ws ih =>
    cases w' <;> simp only [bytes, WireTag.toByte, List.cons_append, List.append_assoc,
      List.cons.injEq] at h <;> try exact absurd h.1 (by decide)
    next us =>
      have hitems : ∀ (vs us : List Wire) (r r' : List UInt8), vs ⊆ ws → FitsItems vs →
          FitsItems us → vs.length = us.length →
          bytesItems vs ++ r = bytesItems us ++ r' → vs = us ∧ r = r' := by
        intro vs
        induction vs with
        | nil =>
          intro us r r' _ _ _ hlen h
          obtain rfl : us = [] := List.length_eq_zero_iff.mp hlen.symm
          exact ⟨rfl, h⟩
        | cons v vs ihv =>
          intro us r r' hsub hv hu hlen h
          cases us with
          | nil => simp at hlen
          | cons u us =>
            simp only [bytesItems, List.append_assoc] at h
            obtain ⟨rfl, h'⟩ := ih v (hsub List.mem_cons_self) hv.1 hu.1 h
            obtain ⟨rfl, rfl⟩ := ihv us r r' (fun x hx => hsub (List.mem_cons_of_mem _ hx)) hv.2
              hu.2 (by simpa using hlen) h'
            exact ⟨rfl, rfl⟩
      obtain ⟨hlen, h'⟩ := length_field_inj hw.1 hw'.1 h.2
      obtain ⟨rfl, rfl⟩ := hitems ws us r r' (fun _ h => h) hw.2 hw'.2 hlen h'
      exact ⟨rfl, rfl⟩
  | dict es ih =>
    cases w' <;> simp only [bytes, WireTag.toByte, List.cons_append, List.append_assoc,
      List.cons.injEq] at h <;> try exact absurd h.1 (by decide)
    next fs =>
      have hkvs : ∀ (gs fs : WireKvs) (r r' : List UInt8), gs ⊆ es → FitsKvs gs →
          FitsKvs fs → gs.length = fs.length →
          bytesKvs gs ++ r = bytesKvs fs ++ r' → gs = fs ∧ r = r' := by
        intro gs
        induction gs with
        | nil =>
          intro fs r r' _ _ _ hlen h
          obtain rfl : fs = [] := List.length_eq_zero_iff.mp hlen.symm
          exact ⟨rfl, h⟩
        | cons g gs ihg =>
          intro fs r r' hsub hg hf hlen h
          cases fs with
          | nil => simp at hlen
          | cons f fs =>
            obtain ⟨k, v⟩ := g
            obtain ⟨l, u⟩ := f
            simp only [bytesKvs, List.append_assoc] at h
            obtain ⟨hkl, h₁⟩ := length_field_inj (Nat.lt_of_succ_lt hg.1) (Nat.lt_of_succ_lt hf.1) h
            obtain ⟨rfl, h₂⟩ := List.append_inj h₁ hkl
            obtain ⟨rfl, h₃⟩ := ih (k, v) (hsub List.mem_cons_self) hg.2.1 hf.2.1 h₂
            obtain ⟨rfl, rfl⟩ := ihg fs r r' (fun x hx => hsub (List.mem_cons_of_mem _ hx))
              hg.2.2 hf.2.2 (by simpa using hlen) h₃
            exact ⟨rfl, rfl⟩
      obtain ⟨hlen, h'⟩ := length_field_inj hw.1 hw'.1 h.2
      obtain ⟨rfl, rfl⟩ := hkvs es fs r r' (fun _ h => h) hw.2 hw'.2 hlen h'
      exact ⟨rfl, rfl⟩
  | null =>
    cases w' <;> simp only [bytes, WireTag.toByte, List.cons_append, List.cons.injEq] at h <;>
      try exact absurd h.1 (by decide)
    exact ⟨rfl, h.2⟩
  | bool v =>
    cases w' <;> simp only [bytes, WireTag.toByte, List.cons_append, List.cons.injEq] at h <;>
      try exact absurd h.1 (by decide)
    exact ⟨by rw [h.2.1], h.2.2⟩
  | int64 v =>
    cases w' <;> simp only [bytes, WireTag.toByte, List.cons_append, List.cons.injEq] at h <;>
      try exact absurd h.1 (by decide)
    obtain ⟨rfl, hr⟩ := scalar_field_inj h.2
    exact ⟨rfl, hr⟩
  | uint64 v =>
    cases w' <;> simp only [bytes, WireTag.toByte, List.cons_append, List.cons.injEq] at h <;>
      try exact absurd h.1 (by decide)
    obtain ⟨rfl, hr⟩ := scalar_field_inj h.2
    exact ⟨rfl, hr⟩
  | double v =>
    cases w' <;> simp only [bytes, WireTag.toByte, List.cons_append, List.cons.injEq] at h <;>
      try exact absurd h.1 (by decide)
    obtain ⟨rfl, hr⟩ := scalar_field_inj h.2
    exact ⟨rfl, hr⟩
  | string bs =>
    cases w' <;> simp only [bytes, WireTag.toByte, List.cons_append, List.append_assoc,
      List.cons.injEq] at h <;> try exact absurd h.1 (by decide)
    obtain ⟨hlen, h'⟩ := length_field_inj hw hw' h.2
    obtain ⟨rfl, hr⟩ := List.append_inj h' hlen
    exact ⟨rfl, hr⟩
  | data bs =>
    cases w' <;> simp only [bytes, WireTag.toByte, List.cons_append, List.append_assoc,
      List.cons.injEq] at h <;> try exact absurd h.1 (by decide)
    obtain ⟨hlen, h'⟩ := length_field_inj hw hw' h.2
    obtain ⟨rfl, hr⟩ := List.append_inj h' hlen
    exact ⟨rfl, hr⟩

/-! ## The object of a tree -/

/-- A property of the objects of all trees holds throughout the object of a tree.

**Proof sketch.** Every node of the object is the object of a subtree; in a dictionary this is
because find-or-insert only stores values it is given. -/
private lemma everywhere_value {P : XpcObject → Prop} (hP : ∀ w : Wire, w.Fits → P w.value)
    {w : Wire} (hw : w.Fits) : XpcObject.Everywhere P w.value := by
  have hmem : ∀ (es : WireKvs) (acc : XpcKvs) (f : CString × XpcObject),
      f ∈ valueKvs acc es → f ∈ acc ∨ ∃ e ∈ es, f.2 = e.2.value := by
    intro es
    induction es with
    | nil => exact fun acc f hf => Or.inl hf
    | cons e es ih =>
      intro acc f hf
      rcases ih _ f hf with hf | ⟨e', he', hval⟩
      · rcases mem_setValue hf with hval | hf
        · exact Or.inr ⟨e, List.mem_cons_self, hval⟩
        · exact Or.inl hf
      · exact Or.inr ⟨e', List.mem_cons_of_mem _ he', hval⟩
  induction w using treeInduction with
  | array ws ih =>
    refine ⟨hP (.array ws) hw, ?_⟩
    rw [valueItems_eq_map, XpcObject.everywhereItems_iff]
    intro x hx
    obtain ⟨w, hmem, rfl⟩ := List.mem_map.mp hx
    exact ih w hmem ((fitsItems_iff ws).mp hw.2 w hmem)
  | dict es ih =>
    refine ⟨hP (.dict es) hw, ?_⟩
    rw [XpcObject.everywhereEntries_iff]
    intro f hf
    rcases hmem es [] f hf with hf | ⟨e, he, hval⟩
    · cases hf
    · rw [hval]
      exact ih e he ((fitsKvs_iff es).mp hw.2 e he).2
  | null => exact hP .null hw
  | bool v => exact hP (.bool v) hw
  | int64 v => exact hP (.int64 v) hw
  | uint64 v => exact hP (.uint64 v) hw
  | double v => exact hP (.double v) hw
  | string bs => exact hP (.string bs) hw
  | data bs => exact hP (.data bs) hw

/-- The object of a tree has a wire form. -/
lemma serializable_value {w : Wire} (hw : w.Fits) : w.value.Serializable :=
  everywhere_value (fun w _ => by cases w <;> trivial) hw

/-- In the object of a tree keys are distinct, whatever the tree repeats. -/
lemma distinctKeys_value {w : Wire} (hw : w.Fits) : w.value.DistinctKeys := by
  have hnodup : ∀ (es : WireKvs) (acc : XpcKvs), (keys acc).Nodup →
      (keys (valueKvs acc es)).Nodup := by
    intro es
    induction es with
    | nil => exact fun _ h => h
    | cons e es ih => exact fun acc h => ih _ (keys_nodup_setValue h _ _)
  refine everywhere_value (fun w _ => ?_) hw
  cases w with
  | dict es => exact hnodup es [] List.nodup_nil
  | _ => trivial

/-- In the object of a tree that fits, a key fits with the NUL behind it. -/
private lemma strlen_of_mem_keys_valueKvs {es : WireKvs} (hes : FitsKvs es) {k : CString}
    (hk : k ∈ keys (valueKvs [] es)) : k.strlen + 1 < 2 ^ 32 := by
  have hkeys : ∀ (es : WireKvs) (acc : XpcKvs) (k : CString), k ∈ keys (valueKvs acc es) →
      k ∈ keys acc ∨ ∃ e ∈ es, k = CString.ofBytes e.1 := by
    intro es
    induction es with
    | nil => exact fun acc k hk => Or.inl hk
    | cons e es ih =>
      intro acc k hk
      rcases ih _ k hk with hk | ⟨e', he', hval⟩
      · rcases mem_keys_setValue hk with hval | hk
        · exact Or.inr ⟨e, List.mem_cons_self, hval⟩
        · exact Or.inl hk
      · exact Or.inr ⟨e', List.mem_cons_of_mem _ he', hval⟩
  rcases hkeys es [] k hk with hk | ⟨e, he, rfl⟩
  · cases hk
  · have hle := CString.strlen_ofBytes_le e.1
    have hlt := ((fitsKvs_iff es).mp hes e he).1
    omega

/-- In the object of a tree keys are short. -/
lemma shortKeys_value {w : Wire} (hw : w.Fits) : w.value.ShortKeys := by
  refine everywhere_value (fun w hw => ?_) hw
  cases w with
  | dict es => exact fun k hk => Nat.lt_of_succ_lt (strlen_of_mem_keys_valueKvs hw.2 hk)
  | _ => trivial

/-- In the object of a tree lengths and counts are 32-bit. -/
lemma small_value {w : Wire} (hw : w.Fits) : w.value.Small := by
  have hlen : ∀ (es : WireKvs) (acc : XpcKvs),
      (valueKvs acc es).length ≤ acc.length + es.length := by
    intro es
    induction es with
    | nil => exact fun acc => le_refl _
    | cons e es ih =>
      intro acc
      have := ih (xpcDictionarySetValue acc (CString.ofBytes e.1) e.2.value)
      have := length_setValue_le acc (CString.ofBytes e.1) e.2.value
      simp only [valueKvs, List.length_cons]
      omega
  refine everywhere_value (fun w hw => ?_) hw
  cases w with
  | array ws => simpa [value, valueItems_eq_map, XpcObject.SmallAt] using hw.1
  | dict es =>
    exact ⟨lt_of_le_of_lt (hlen es []) (by simpa using hw.1),
      fun k hk => strlen_of_mem_keys_valueKvs hw.2 hk⟩
  | string bs => exact hw
  | data bs => exact hw
  | _ => trivial

/-- Entries with distinct keys end up in the reverse of their order, each at the head in turn. -/
lemma valueKvs_of_nodup (es : WireKvs) (acc : XpcKvs)
    (h : (es.map fun e => CString.ofBytes e.1).Nodup)
    (hacc : ∀ e ∈ es, CString.ofBytes e.1 ∉ keys acc) :
    valueKvs acc es = (es.map fun e => (CString.ofBytes e.1, e.2.value)).reverse ++ acc := by
  induction es generalizing acc with
  | nil => rfl
  | cons e es ih =>
    rw [List.map_cons, List.nodup_cons] at h
    have hnew := hacc e List.mem_cons_self
    have hrest : ∀ f ∈ es, CString.ofBytes f.1 ∉
        keys (xpcDictionarySetValue acc (CString.ofBytes e.1) e.2.value) := by
      intro f hf hmem
      rw [setValue_of_notMem hnew] at hmem
      rcases List.mem_cons.mp hmem with heq | hmem
      · exact h.1 (List.mem_map.mpr ⟨f, hf, heq⟩)
      · exact hacc f (List.mem_cons_of_mem _ hf) hmem
    rw [valueKvs, ih _ h.2 hrest, setValue_of_notMem hnew]
    simp

end Wire

/-! ## The tree of a graph stands for the graph -/

/-- The trees of the items are the items' trees. -/
lemma toWireItems_eq_map (xs : List XpcObject) : toWireItems xs = xs.map toWire := by
  induction xs with
  | nil => rfl
  | cons x xs ih => simp [toWireItems, ih]

/-- The trees of the entries, one by one. -/
lemma toWireKvs_eq_map (es : XpcKvs) :
    toWireKvs es = es.map fun e => (e.1.bytes.take (toUint32 e.1.strlen), toWire e.2) := by
  induction es with
  | nil => rfl
  | cons e es ih => simp [toWireKvs, ih]

/-- A key shorter than `2 ^ 32` bytes is not cut. -/
lemma take_toUint32_strlen {k : CString} (h : k.strlen < 2 ^ 32) :
    k.bytes.take (toUint32 k.strlen) = k.bytes := by
  rw [toUint32_of_lt h, CString.strlen, List.take_length]

/-- Cutting a key to `klen` bytes leaves that many. -/
lemma length_take_toUint32_strlen (k : CString) :
    (k.bytes.take (toUint32 k.strlen)).length = toUint32 k.strlen :=
  List.length_take_of_le (toUint32_le k.strlen)

/-- A length field of four bytes holds the length modulo `2 ^ 32` in any case. -/
private lemma leBytes_toUint32 (n : ℕ) : leBytes 4 (toUint32 n) = leBytes 4 n := leBytes_mod 4 n

/-- **The encoder's bytes are the image of the graph's tree.** -/
lemma bytes_toWire {o : XpcObject} (ho : o.Serializable) : (toWire o).bytes = wireBytes o := by
  induction o using XpcObject.graphInduction with
  | array xs ih =>
    have hitems : ∀ ys ⊆ xs, Wire.bytesItems (toWireItems ys) = wireBytesItems ys := by
      intro ys
      induction ys with
      | nil => exact fun _ => rfl
      | cons y ys ihy =>
        intro hys
        have hy : y ∈ xs := hys List.mem_cons_self
        rw [toWireItems, Wire.bytesItems, wireBytesItems,
          ih y hy ((XpcObject.everywhereItems_iff _ xs).mp ho.2 y hy),
          ihy fun z hz => hys (List.mem_cons_of_mem _ hz)]
    rw [toWire, Wire.bytes, wireBytes, hitems xs fun _ h => h, toWireItems_eq_map,
      List.length_map, leBytes_toUint32]
  | dictionary es ih =>
    have hkvs : ∀ fs ⊆ es, Wire.bytesKvs (toWireKvs fs) = wireBytesKvs fs := by
      intro fs
      induction fs with
      | nil => exact fun _ => rfl
      | cons f fs ihf =>
        intro hfs
        have hf : f ∈ es := hfs List.mem_cons_self
        rw [toWireKvs, Wire.bytesKvs, wireBytesKvs,
          ih f hf ((XpcObject.everywhereEntries_iff _ es).mp ho.2 f hf),
          ihf fun z hz => hfs (List.mem_cons_of_mem _ hz), length_take_toUint32_strlen]
    rw [toWire, Wire.bytes, wireBytes, hkvs es fun _ h => h, toWireKvs_eq_map,
      List.length_map, leBytes_toUint32]
  | connection c => exact absurd ho id
  | error s => exact absurd ho id
  | string bs => rw [toWire, Wire.bytes, wireBytes, leBytes_toUint32]
  | data bs => rw [toWire, Wire.bytes, wireBytes, leBytes_toUint32]
  | _ => rfl

/-- **The tree of a graph stands for the graph**, up to the order of entries.

**Proof sketch.** Induction over the graph. With distinct short keys the entries of a dictionary
come back reversed (`Wire.valueKvs_of_nodup`), which is a rearrangement. -/
lemma same_value_toWire {o : XpcObject} (ho : o.Serializable) (hd : o.DistinctKeys)
    (hs : o.ShortKeys) : XpcObject.Same o (toWire o).value := by
  induction o using XpcObject.graphInduction with
  | array xs ih =>
    rw [toWire, Wire.value, XpcObject.Same, Wire.valueItems_eq_map, toWireItems_eq_map,
      XpcObject.sameItems_iff, List.map_map, List.forall₂_map_right_iff, List.forall₂_same]
    exact fun x hx => ih x hx ((XpcObject.everywhereItems_iff _ xs).mp ho.2 x hx)
      ((XpcObject.everywhereItems_iff _ xs).mp hd.2 x hx)
      ((XpcObject.everywhereItems_iff _ xs).mp hs.2 x hx)
  | dictionary es ih =>
    have hkey : ∀ e ∈ es,
        CString.ofBytes (e.1.bytes.take (toUint32 e.1.strlen)) = e.1 := by
      intro e he
      rw [take_toUint32_strlen (hs.1 e.1 (List.mem_map_of_mem he)), CString.ofBytes_bytes]
    have hkeys : (toWireKvs es).map (fun e => CString.ofBytes e.1) = keys es := by
      rw [toWireKvs_eq_map, List.map_map]
      exact List.map_congr_left hkey
    have hval := Wire.valueKvs_of_nodup (toWireKvs es) [] (hkeys ▸ hd.1) (by simp [keys])
    rw [toWire, Wire.value, hval, List.append_nil]
    refine ⟨_, (List.reverse_perm _).symm, ?_⟩
    rw [toWireKvs_eq_map, List.map_map, XpcObject.sameEntries_iff, List.forall₂_map_right_iff,
      List.forall₂_same]
    intro e he
    exact ⟨(hkey e he).symm, ih e he ((XpcObject.everywhereEntries_iff _ es).mp ho.2 e he)
      ((XpcObject.everywhereEntries_iff _ es).mp hd.2 e he)
      ((XpcObject.everywhereEntries_iff _ es).mp hs.2 e he)⟩
  | bool b => cases b <;> simp [toWire, Wire.value, XpcObject.Same]
  | connection c => exact absurd ho id
  | error s => exact absurd ho id
  | _ => simp [toWire, Wire.value, XpcObject.Same]

/-- The tree of a graph whose lengths and counts are 32-bit fits. -/
lemma fits_toWire {o : XpcObject} (h : o.Small) : (toWire o).Fits := by
  induction o using XpcObject.graphInduction with
  | array xs ih =>
    rw [toWire, toWireItems_eq_map, Wire.Fits, Wire.fitsItems_iff, List.length_map]
    refine ⟨h.1, fun w hw => ?_⟩
    obtain ⟨x, hx, rfl⟩ := List.mem_map.mp hw
    exact ih x hx ((XpcObject.everywhereItems_iff _ xs).mp h.2 x hx)
  | dictionary es ih =>
    rw [toWire, toWireKvs_eq_map, Wire.Fits, Wire.fitsKvs_iff, List.length_map]
    refine ⟨h.1.1, fun f hf => ?_⟩
    obtain ⟨e, he, rfl⟩ := List.mem_map.mp hf
    refine ⟨?_, ih e he ((XpcObject.everywhereEntries_iff _ es).mp h.2 e he)⟩
    rw [length_take_toUint32_strlen]
    exact (Nat.succ_le_succ (toUint32_le _)).trans_lt (h.1.2 e.1 (List.mem_map_of_mem he))
  | string bs => exact h
  | data bs => exact h
  | _ => trivial

/-- **The tree of a graph is canonical** when keys are distinct and short. -/
lemma canonical_toWire {o : XpcObject} (hd : o.DistinctKeys) (hs : o.ShortKeys) :
    (toWire o).Canonical := by
  induction o using XpcObject.graphInduction with
  | array xs ih =>
    rw [toWire, Wire.Canonical, toWireItems_eq_map, Wire.canonicalItems_iff]
    intro w hw
    obtain ⟨x, hx, rfl⟩ := List.mem_map.mp hw
    exact ih x hx ((XpcObject.everywhereItems_iff _ xs).mp hd.2 x hx)
      ((XpcObject.everywhereItems_iff _ xs).mp hs.2 x hx)
  | dictionary es ih =>
    have hkeys : (toWireKvs es).map Prod.fst = (keys es).map CString.bytes := by
      rw [toWireKvs_eq_map, List.map_map, keys, List.map_map]
      exact List.map_congr_left fun e he => take_toUint32_strlen (hs.1 e.1 (List.mem_map_of_mem he))
    refine ⟨?_, ?_, ?_⟩
    · rw [hkeys]
      intro k hk
      obtain ⟨s, _, rfl⟩ := List.mem_map.mp hk
      exact s.nulFree
    · rw [hkeys]
      exact hd.1.map fun _ _ h => CString.ext h
    · rw [toWireKvs_eq_map, Wire.canonicalKvs_iff]
      intro f hf
      obtain ⟨e, he, rfl⟩ := List.mem_map.mp hf
      exact ih e he ((XpcObject.everywhereEntries_iff _ es).mp hd.2 e he)
        ((XpcObject.everywhereEntries_iff _ es).mp hs.2 e he)
  | bool b => cases b <;> simp [toWire, Wire.Canonical]
  | _ => trivial

/-! ## The graph of a canonical tree -/

namespace Wire

/-- A property of the graphs of all canonical trees holds throughout the graph of one. -/
private lemma everywhere_toObject {P : XpcObject → Prop}
    (hP : ∀ w : Wire, w.Fits → w.Canonical → P w.toObject) {w : Wire} (hw : w.Fits)
    (hc : w.Canonical) : XpcObject.Everywhere P w.toObject := by
  induction w using treeInduction with
  | array ws ih =>
    refine ⟨hP (.array ws) hw hc, ?_⟩
    rw [toObjectItems_eq_map, XpcObject.everywhereItems_iff]
    intro x hx
    obtain ⟨w, hmem, rfl⟩ := List.mem_map.mp hx
    exact ih w hmem ((fitsItems_iff ws).mp hw.2 w hmem) ((canonicalItems_iff ws).mp hc w hmem)
  | dict es ih =>
    refine ⟨hP (.dict es) hw hc, ?_⟩
    rw [toObjectKvs_eq_map, XpcObject.everywhereEntries_iff]
    intro f hf
    obtain ⟨e, he, rfl⟩ := List.mem_map.mp hf
    exact ih e he ((fitsKvs_iff es).mp hw.2 e he).2 ((canonicalKvs_iff es).mp hc.2.2 e he)
  | null => exact hP .null hw hc
  | bool v => exact hP (.bool v) hw hc
  | int64 v => exact hP (.int64 v) hw hc
  | uint64 v => exact hP (.uint64 v) hw hc
  | double v => exact hP (.double v) hw hc
  | string bs => exact hP (.string bs) hw hc
  | data bs => exact hP (.data bs) hw hc

/-- The graph of a canonical tree has a wire form. -/
lemma serializable_toObject {w : Wire} (hw : w.Fits) (hc : w.Canonical) :
    w.toObject.Serializable :=
  everywhere_toObject (fun w _ _ => by cases w <;> trivial) hw hc

/-- The keys in the graph of a canonical dictionary are the wire keys. -/
private lemma map_bytes_keys_toObjectKvs {es : WireKvs}
    (hnul : ∀ k ∈ es.map Prod.fst, 0 ∉ k) :
    (keys (toObjectKvs es)).map CString.bytes = es.map Prod.fst := by
  rw [toObjectKvs_eq_map, keys, List.map_map, List.map_map]
  exact List.map_congr_left fun e he =>
    CString.bytes_ofBytes_of_nulFree (hnul e.1 (List.mem_map_of_mem he))

/-- The graph of a canonical tree has distinct keys. -/
lemma distinctKeys_toObject {w : Wire} (hw : w.Fits) (hc : w.Canonical) :
    w.toObject.DistinctKeys := by
  refine everywhere_toObject (fun w _ hc => ?_) hw hc
  cases w with
  | dict es => exact List.Nodup.of_map CString.bytes (map_bytes_keys_toObjectKvs hc.1 ▸ hc.2.1)
  | _ => trivial

/-- The graph of a canonical tree has short keys. -/
lemma shortKeys_toObject {w : Wire} (hw : w.Fits) (hc : w.Canonical) :
    w.toObject.ShortKeys := by
  refine everywhere_toObject (fun w hw _ => ?_) hw hc
  cases w with
  | dict es =>
    intro k hk
    rw [toObjectKvs_eq_map, keys, List.map_map] at hk
    obtain ⟨e, he, rfl⟩ := List.mem_map.mp hk
    exact lt_of_le_of_lt (CString.strlen_ofBytes_le e.1)
      (Nat.lt_of_succ_lt ((fitsKvs_iff es).mp hw.2 e he).1)
  | _ => trivial

/-- **A canonical tree is the tree of its graph.** -/
lemma toWire_toObject {w : Wire} (hf : w.Fits) (hc : w.Canonical) : toWire w.toObject = w := by
  induction w using treeInduction with
  | array ws ih =>
    rw [toObject, toWire, toWireItems_eq_map, toObjectItems_eq_map, List.map_map]
    congr 1
    conv_rhs => rw [← List.map_id ws]
    exact List.map_congr_left fun w hw => ih w hw ((fitsItems_iff ws).mp hf.2 w hw)
      ((canonicalItems_iff ws).mp hc w hw)
  | dict es ih =>
    rw [toObject, toWire, toWireKvs_eq_map, toObjectKvs_eq_map, List.map_map]
    congr 1
    conv_rhs => rw [← List.map_id es]
    refine List.map_congr_left fun e he => ?_
    have hfit := (fitsKvs_iff es).mp hf.2 e he
    have hkey := CString.bytes_ofBytes_of_nulFree (hc.1 e.1 (List.mem_map_of_mem he))
    have hlen : (CString.ofBytes e.1).strlen < 2 ^ 32 := by
      rw [CString.strlen, hkey]
      exact Nat.lt_of_succ_lt hfit.1
    simp only [Function.comp_apply, id_eq]
    rw [take_toUint32_strlen hlen, hkey, ih e he hfit.2 ((canonicalKvs_iff es).mp hc.2.2 e he)]
  | bool v => rcases hc with rfl | rfl <;> rfl
  | int64 v => simp [toObject, toWire]
  | _ => rfl

end Wire

end Asteros.Xpc
