import Asteros.Libc.CTypes
import Mathlib.Data.List.Forall2
import Mathlib.Data.List.Perm.Basic

set_option autoImplicit false

/-!
# XPC objects

`xpc_object_t` graphs as values, from `xpc_object.c` and `xpc_dictionary.c`. An object is its
type tag with the member of the union that the tag selects; a dictionary is the linked list of
its `struct xpc_kv` entries from the head, whose length is the `count` field. Keys are what
`strdup` stored, so they are C strings.

## Main definitions

* `XpcObject` — `struct xpc_object_s`.
* `findKv`, `xpcDictionarySetValue` — lookup and find-or-insert.
* `XpcObject.Same` — equal scalars, equal array order, and equal dictionaries up to the order of
  their entries.
* `XpcObject.DistinctKeys` — no dictionary of the graph lists a key twice.

## Main results

* `keys_nodup_setValue` — find-or-insert keeps the keys of a dictionary distinct.
* `findKv_sameEntries` — dictionaries that are the same up to entry order map each key to the same
  value.
-/

namespace Asteros.Xpc

open Asteros.Libc

/-- An object graph: the tag of `struct xpc_object_s` with its union member. A `double` is its
64-bit pattern; a string carries its own length and may hold any bytes. -/
inductive XpcObject where
  | null
  | bool (b : Bool)
  | int64 (i64 : Int64)
  | uint64 (u64 : UInt64)
  | double (d : UInt64)
  | string (bytes : List UInt8)
  | data (bytes : List UInt8)
  | array (items : List XpcObject)
  | dictionary (head : List (CString × XpcObject))
  | connection (conn : ℕ)
  | error (errDesc : CString)

/-- The entries of a dictionary, in list order from the head. -/
abbrev XpcKvs := List (CString × XpcObject)

namespace XpcObject

/-- Induction over an object graph: a property of every item of an array holds of the array, and
one of every value of a dictionary holds of the dictionary. -/
lemma graphInduction {P : XpcObject → Prop} (null : P .null) (bool : ∀ b, P (.bool b))
    (int64 : ∀ v, P (.int64 v)) (uint64 : ∀ v, P (.uint64 v)) (double : ∀ v, P (.double v))
    (string : ∀ bs, P (.string bs)) (data : ∀ bs, P (.data bs))
    (array : ∀ xs, (∀ x ∈ xs, P x) → P (.array xs))
    (dictionary : ∀ es : XpcKvs, (∀ e ∈ es, P e.2) → P (.dictionary es))
    (connection : ∀ c, P (.connection c)) (error : ∀ s, P (.error s)) (o : XpcObject) : P o := by
  refine @XpcObject.rec P (fun xs => ∀ x ∈ xs, P x) (fun es => ∀ e ∈ es, P e.2) (fun e => P e.2)
    null bool int64 uint64 double string data array dictionary connection error ?_ ?_ ?_ ?_ ?_ o
  · simp
  · intro x xs hx hxs y hy
    rcases List.mem_cons.mp hy with rfl | hy
    · exact hx
    · exact hxs y hy
  · simp
  · intro e es he hes f hf
    rcases List.mem_cons.mp hf with rfl | hf
    · exact he
    · exact hes f hf
  · exact fun _ _ h => h

end XpcObject

/-! ## Dictionaries -/

/-- `find_kv`: the value of the first entry whose key compares equal. -/
def findKv : XpcKvs → CString → Option XpcObject
  | [], _ => none
  | (k, v) :: es, key => if k = key then some v else findKv es key

/-- The store `kv->value = value` through the entry `find_kv` returned. -/
def replaceKv : XpcKvs → CString → XpcObject → XpcKvs
  | [], _, _ => []
  | (k, v) :: es, key, value =>
    if k = key then (k, value) :: es else (k, v) :: replaceKv es key value

/-- `xpc_dictionary_set_value`: overwrite the value of an existing key, or push a new entry at
the head of the list. -/
def xpcDictionarySetValue (es : XpcKvs) (key : CString) (value : XpcObject) : XpcKvs :=
  match findKv es key with
  | some _ => replaceKv es key value
  | none => (key, value) :: es

/-- The keys of a dictionary, in list order. -/
def keys (es : XpcKvs) : List CString := es.map Prod.fst

/-- A key is found exactly when it is listed. -/
lemma findKv_eq_none_iff (es : XpcKvs) (key : CString) : findKv es key = none ↔ key ∉ keys es := by
  induction es with
  | nil => simp [findKv, keys]
  | cons e es ih =>
    obtain ⟨k, v⟩ := e
    by_cases hk : k = key
    · simp [findKv, keys, hk]
    · simpa [findKv, keys, hk, Ne.symm hk] using ih

/-- Overwriting a value leaves the keys alone. -/
lemma keys_replaceKv (es : XpcKvs) (key : CString) (value : XpcObject) :
    keys (replaceKv es key value) = keys es := by
  induction es with
  | nil => rfl
  | cons e es ih =>
    obtain ⟨k, v⟩ := e
    by_cases hk : k = key
    · simp [replaceKv, keys, hk]
    · simpa [replaceKv, keys, hk] using ih

/-- Inserting a key that is not yet there pushes its entry at the head. -/
lemma setValue_of_notMem {es : XpcKvs} {key : CString} (h : key ∉ keys es) (value : XpcObject) :
    xpcDictionarySetValue es key value = (key, value) :: es := by
  rw [xpcDictionarySetValue, (findKv_eq_none_iff es key).mpr h]

/-- Setting a key that is there keeps the list of keys. -/
lemma keys_setValue_of_mem {es : XpcKvs} {key : CString} (h : key ∈ keys es)
    (value : XpcObject) : keys (xpcDictionarySetValue es key value) = keys es := by
  unfold xpcDictionarySetValue
  cases hf : findKv es key with
  | none => exact absurd h ((findKv_eq_none_iff es key).mp hf)
  | some v => exact keys_replaceKv es key value

/-- **Find-or-insert keeps keys distinct.** -/
lemma keys_nodup_setValue {es : XpcKvs} (h : (keys es).Nodup) (key : CString)
    (value : XpcObject) : (keys (xpcDictionarySetValue es key value)).Nodup := by
  by_cases hmem : key ∈ keys es
  · rw [keys_setValue_of_mem hmem]
    exact h
  · rw [setValue_of_notMem hmem]
    simpa [keys] using ⟨by simpa [keys] using hmem, h⟩

/-- The keys of a dictionary after a store are old keys or the new one. -/
lemma mem_keys_setValue {es : XpcKvs} {key k : CString} {value : XpcObject}
    (h : k ∈ keys (xpcDictionarySetValue es key value)) : k = key ∨ k ∈ keys es := by
  by_cases hmem : key ∈ keys es
  · rw [keys_setValue_of_mem hmem] at h
    exact Or.inr h
  · rw [setValue_of_notMem hmem] at h
    exact List.mem_cons.mp h

/-- A store adds at most one entry. -/
lemma length_setValue_le (es : XpcKvs) (key : CString) (value : XpcObject) :
    (xpcDictionarySetValue es key value).length ≤ es.length + 1 := by
  have hlen : ∀ fs : XpcKvs, (keys fs).length = fs.length := fun fs => List.length_map _
  by_cases hmem : key ∈ keys es
  · rw [← hlen, keys_setValue_of_mem hmem, hlen]
    omega
  · rw [setValue_of_notMem hmem, List.length_cons]

/-- The values of a dictionary after a store are old values or the new one. -/
lemma mem_setValue {es : XpcKvs} {key : CString} {value : XpcObject} {e : CString × XpcObject}
    (h : e ∈ xpcDictionarySetValue es key value) : e.2 = value ∨ e ∈ es := by
  have hrep : ∀ fs : XpcKvs, e ∈ replaceKv fs key value → e.2 = value ∨ e ∈ fs := by
    intro fs
    induction fs with
    | nil => simp [replaceKv]
    | cons f fs ih =>
      obtain ⟨k, v⟩ := f
      intro he
      by_cases hk : k = key
      · simp only [replaceKv, hk, ↓reduceIte, List.mem_cons] at he ⊢
        rcases he with rfl | he
        · exact Or.inl rfl
        · exact Or.inr (Or.inr he)
      · simp only [replaceKv, hk, ↓reduceIte, List.mem_cons] at he ⊢
        rcases he with rfl | he
        · exact Or.inr (Or.inl rfl)
        · exact (ih he).imp_right Or.inr
  unfold xpcDictionarySetValue at h
  cases hf : findKv es key with
  | none =>
    simp only [hf, List.mem_cons] at h
    rcases h with rfl | h
    · exact Or.inl rfl
    · exact Or.inr h
  | some v =>
    rw [hf] at h
    exact hrep es h

/-! ## Graphs up to entry order -/

section Matching

variable {α β : Type} {R S : α → β → Prop} {l : List α} {u : List β}

/-- A match of two lists may be weakened using membership on the left. -/
private lemma forall₂_imp_of_mem (h : List.Forall₂ R l u) (hRS : ∀ a ∈ l, ∀ b, R a b → S a b) :
    List.Forall₂ S l u := by
  induction h with
  | nil => exact List.Forall₂.nil
  | cons hab _ ih =>
    exact List.Forall₂.cons (hRS _ List.mem_cons_self _ hab)
      (ih fun a ha => hRS a (List.mem_cons_of_mem _ ha))

/-- Every member of the right list is matched by one of the left. -/
private lemma exists_mem_of_forall₂ (h : List.Forall₂ R l u) : ∀ b ∈ u, ∃ a ∈ l, R a b := by
  induction h with
  | nil => simp
  | @cons a b l u hab _ ih =>
    intro c hc
    rcases List.mem_cons.mp hc with rfl | hc
    · exact ⟨a, List.mem_cons_self, hab⟩
    · obtain ⟨x, hx, hxc⟩ := ih c hc
      exact ⟨x, List.mem_cons_of_mem _ hx, hxc⟩

end Matching

namespace XpcObject

mutual
/-- The two graphs hold the same scalars, the same items in the same order, and dictionaries
with the same entries up to their order. -/
def Same : XpcObject → XpcObject → Prop
  | .null, .null => True
  | .bool b, .bool c => b = c
  | .int64 v, .int64 w => v = w
  | .uint64 v, .uint64 w => v = w
  | .double v, .double w => v = w
  | .string bs, .string cs => bs = cs
  | .data bs, .data cs => bs = cs
  | .array xs, .array ys => SameItems xs ys
  | .dictionary es, .dictionary fs => ∃ gs : XpcKvs, gs.Perm fs ∧ SameEntries es gs
  | .connection c, .connection d => c = d
  | .error s, .error t => s = t
  | _, _ => False

/-- Item by item the same. -/
def SameItems : List XpcObject → List XpcObject → Prop
  | [], [] => True
  | x :: xs, y :: ys => Same x y ∧ SameItems xs ys
  | _, _ => False

/-- Entry by entry the same key with the same value. -/
def SameEntries : XpcKvs → XpcKvs → Prop
  | [], [] => True
  | (k, v) :: es, (l, w) :: fs => k = l ∧ Same v w ∧ SameEntries es fs
  | _, _ => False
end

/-- Item-by-item sameness, as a relation between lists. -/
lemma sameItems_iff (xs ys : List XpcObject) : SameItems xs ys ↔ List.Forall₂ Same xs ys := by
  induction xs generalizing ys with
  | nil => cases ys <;> simp [SameItems]
  | cons x xs ih => cases ys <;> simp [SameItems, ih]

/-- The same key with the same value. -/
def SameKv (e f : CString × XpcObject) : Prop := e.1 = f.1 ∧ Same e.2 f.2

/-- Entry-by-entry sameness, as a relation between lists. -/
lemma sameEntries_iff (es fs : XpcKvs) : SameEntries es fs ↔ List.Forall₂ SameKv es fs := by
  induction es generalizing fs with
  | nil => cases fs <;> simp [SameEntries]
  | cons e es ih => cases fs <;> simp [SameEntries, SameKv, ih, and_assoc]

/-- A graph is the same as itself. -/
@[simp] lemma Same.refl (o : XpcObject) : Same o o := by
  induction o using graphInduction with
  | array xs ih =>
    rw [Same, sameItems_iff, List.forall₂_same]
    exact ih
  | dictionary es ih =>
    refine ⟨es, List.Perm.refl es, ?_⟩
    rw [sameEntries_iff, List.forall₂_same]
    exact fun e he => ⟨rfl, ih e he⟩
  | _ => simp [Same]

/-- Objects that are the same are equal, or they are arrays of the same items or dictionaries of
the same entries. -/
lemma Same.eq_or {o o' : XpcObject} (h : Same o o') :
    o' = o ∨ (∃ xs ys, o = .array xs ∧ o' = .array ys ∧ List.Forall₂ Same xs ys) ∨
      ∃ es fs gs, o = .dictionary es ∧ o' = .dictionary fs ∧ gs.Perm fs ∧
        List.Forall₂ SameKv es gs := by
  unfold Same at h
  split at h
  · exact Or.inl rfl
  · exact Or.inl (congrArg _ h.symm)
  · exact Or.inl (congrArg _ h.symm)
  · exact Or.inl (congrArg _ h.symm)
  · exact Or.inl (congrArg _ h.symm)
  · exact Or.inl (congrArg _ h.symm)
  · exact Or.inl (congrArg _ h.symm)
  · next xs ys => exact Or.inr (Or.inl ⟨xs, ys, rfl, rfl, (sameItems_iff xs ys).mp h⟩)
  · next es fs =>
    obtain ⟨gs, hperm, hes⟩ := h
    exact Or.inr (Or.inr ⟨es, fs, gs, rfl, rfl, hperm, (sameEntries_iff es gs).mp hes⟩)
  · exact Or.inl (congrArg _ h.symm)
  · exact Or.inl (congrArg _ h.symm)
  · exact h.elim

/-- Sameness is symmetric.

**Proof sketch.** Induction over the graph. For two dictionaries, an entrywise match of `es`
with a rearrangement of `fs` is an entrywise match of `fs` with a rearrangement of `es`. -/
lemma Same.symm {o o' : XpcObject} (h : Same o o') : Same o' o := by
  induction o using graphInduction generalizing o' with
  | array xs ih =>
    rcases h.eq_or with rfl | ⟨xs', ys, hxs, rfl, hitems⟩ | ⟨_, _, _, hes, -⟩
    · exact Same.refl _
    · cases hxs
      have hflip : List.Forall₂ (flip Same) xs ys :=
        forall₂_imp_of_mem hitems fun x hx y hxy => ih x hx hxy
      rw [Same, sameItems_iff]
      exact hflip.flip
    · cases hes
  | dictionary es ih =>
    rcases h.eq_or with rfl | ⟨_, _, hxs, -⟩ | ⟨es', fs, gs, hes, rfl, hperm, hentries⟩
    · exact Same.refl _
    · cases hxs
    · cases hes
      have hflip : List.Forall₂ (flip SameKv) es gs :=
        forall₂_imp_of_mem hentries fun e he f hef => ⟨hef.1.symm, ih e he hef.2⟩
      have hcomp : Relation.Comp List.Perm (List.Forall₂ SameKv) fs es :=
        ⟨gs, hperm.symm, hflip.flip⟩
      rw [← List.forall₂_comp_perm_eq_perm_comp_forall₂] at hcomp
      obtain ⟨hs, hfs, hhs⟩ := hcomp
      exact ⟨hs, hhs, (sameEntries_iff fs hs).mpr hfs⟩
  | _ =>
    rcases h.eq_or with rfl | ⟨_, _, hxs, -⟩ | ⟨_, _, _, hes, -⟩
    · exact Same.refl _
    · cases hxs
    · cases hes

/-- Entrywise-same lists have the same keys. -/
lemma keys_eq_of_sameEntries {es fs : XpcKvs} (h : List.Forall₂ SameKv es fs) :
    keys es = keys fs := by
  induction h with
  | nil => rfl
  | cons hef _ ih => simpa [keys, hef.1] using ih

/-! ## Properties of every node -/

mutual
/-- `P` holds of the object and of every object it contains. -/
def Everywhere (P : XpcObject → Prop) : XpcObject → Prop
  | .array xs => P (.array xs) ∧ EverywhereItems P xs
  | .dictionary es => P (.dictionary es) ∧ EverywhereEntries P es
  | o => P o

/-- `P` holds throughout every item. -/
def EverywhereItems (P : XpcObject → Prop) : List XpcObject → Prop
  | [] => True
  | x :: xs => Everywhere P x ∧ EverywhereItems P xs

/-- `P` holds throughout every value. -/
def EverywhereEntries (P : XpcObject → Prop) : XpcKvs → Prop
  | [] => True
  | (_, v) :: es => Everywhere P v ∧ EverywhereEntries P es
end

/-- `P` throughout the items means throughout each of them. -/
lemma everywhereItems_iff (P : XpcObject → Prop) (xs : List XpcObject) :
    EverywhereItems P xs ↔ ∀ x ∈ xs, Everywhere P x := by
  induction xs with
  | nil => simp [EverywhereItems]
  | cons x xs ih => simp [EverywhereItems, ih]

/-- `P` throughout the entries means throughout each value. -/
lemma everywhereEntries_iff (P : XpcObject → Prop) (es : XpcKvs) :
    EverywhereEntries P es ↔ ∀ e ∈ es, Everywhere P e.2 := by
  induction es with
  | nil => simp [EverywhereEntries]
  | cons e es ih => simp [EverywhereEntries, ih]

/-- A property of nodes that sameness respects holds throughout one graph exactly when it holds
throughout a graph that is the same.

**Proof sketch.** Induction over the graph; the items, and the values of the entries in any
order, match one to one. -/
lemma Everywhere.of_same {P : XpcObject → Prop} (hP : ∀ {o o'}, Same o o' → P o → P o')
    {o o' : XpcObject} (h : Same o o') (ho : Everywhere P o) : Everywhere P o' := by
  induction o using graphInduction generalizing o' with
  | array xs ih =>
    rcases h.eq_or with rfl | ⟨xs', ys, hxs, rfl, hitems⟩ | ⟨_, _, _, hes, -⟩
    · exact ho
    · cases hxs
      simp only [Everywhere, everywhereItems_iff] at ho ⊢
      refine ⟨hP h ho.1, fun y hy => ?_⟩
      obtain ⟨x, hx, hxy⟩ := exists_mem_of_forall₂ hitems y hy
      exact ih x hx hxy (ho.2 x hx)
    · cases hes
  | dictionary es ih =>
    rcases h.eq_or with rfl | ⟨_, _, hxs, -⟩ | ⟨es', fs, gs, hes, rfl, hperm, hentries⟩
    · exact ho
    · cases hxs
    · cases hes
      simp only [Everywhere, everywhereEntries_iff] at ho ⊢
      refine ⟨hP h ho.1, fun f hf => ?_⟩
      obtain ⟨e, he, hef⟩ := exists_mem_of_forall₂ hentries f (hperm.mem_iff.mpr hf)
      exact ih e he hef.2 (ho.2 e he)
  | _ =>
    rcases h.eq_or with rfl | ⟨_, _, hxs, -⟩ | ⟨_, _, _, hes, -⟩
    · exact ho
    · cases hxs
    · cases hes

/-- A dictionary lists no key twice; other objects are unconstrained. -/
def DistinctKeysAt : XpcObject → Prop
  | .dictionary es => (keys es).Nodup
  | _ => True

/-- No dictionary of the graph lists a key twice. -/
def DistinctKeys : XpcObject → Prop := Everywhere DistinctKeysAt

/-- The type has a wire form: not a connection, not an error. -/
def SerializableAt : XpcObject → Prop
  | .connection _ => False
  | .error _ => False
  | _ => True

/-- The graph is built from the types that have a wire form. -/
def Serializable : XpcObject → Prop := Everywhere SerializableAt

/-- Every key of a dictionary is shorter than `2 ^ 32` bytes; other objects are unconstrained. -/
def ShortKeysAt : XpcObject → Prop
  | .dictionary es => ∀ k ∈ keys es, k.strlen < 2 ^ 32
  | _ => True

/-- Every dictionary key of the graph is shorter than `2 ^ 32` bytes. -/
def ShortKeys : XpcObject → Prop := Everywhere ShortKeysAt

/-- Lengths and counts fit in 32 bits, that of a key with the byte behind it. -/
def SmallAt : XpcObject → Prop
  | .string bs => bs.length < 2 ^ 32
  | .data bs => bs.length < 2 ^ 32
  | .array xs => xs.length < 2 ^ 32
  | .dictionary es => es.length < 2 ^ 32 ∧ ∀ k ∈ keys es, k.strlen + 1 < 2 ^ 32
  | _ => True

/-- Every string, data object, array, dictionary and key of the graph has a 32-bit length. -/
def Small : XpcObject → Prop := Everywhere SmallAt

/-- The keys of two dictionaries that are the same are rearrangements of each other. -/
lemma Same.keys_perm {es fs : XpcKvs} (h : Same (.dictionary es) (.dictionary fs)) :
    (keys es).Perm (keys fs) := by
  obtain ⟨gs, hperm, hes⟩ := h
  rw [keys_eq_of_sameEntries ((sameEntries_iff es gs).mp hes)]
  exact hperm.map Prod.fst

/-- Distinctness of keys does not depend on the order of entries. -/
lemma DistinctKeys.of_same {o o' : XpcObject} (h : Same o o') (ho : DistinctKeys o) :
    DistinctKeys o' := by
  refine Everywhere.of_same (fun {o o'} h ho => ?_) h ho
  rcases h.eq_or with rfl | ⟨_, _, rfl, rfl, -⟩ | ⟨_, _, _, rfl, rfl, -⟩
  · exact ho
  · exact ho
  · exact h.keys_perm.nodup_iff.mp ho

/-- Having a wire form does not depend on the order of entries. -/
lemma Serializable.of_same {o o' : XpcObject} (h : Same o o') (ho : Serializable o) :
    Serializable o' := by
  refine Everywhere.of_same (fun {o o'} h ho => ?_) h ho
  rcases h.eq_or with rfl | ⟨_, _, rfl, rfl, -⟩ | ⟨_, _, _, rfl, rfl, -⟩
  · exact ho
  · exact ho
  · exact ho

/-- Shortness of keys does not depend on the order of entries. -/
lemma ShortKeys.of_same {o o' : XpcObject} (h : Same o o') (ho : ShortKeys o) :
    ShortKeys o' := by
  refine Everywhere.of_same (fun {o o'} h ho => ?_) h ho
  rcases h.eq_or with rfl | ⟨_, _, rfl, rfl, -⟩ | ⟨_, _, _, rfl, rfl, -⟩
  · exact ho
  · exact ho
  · exact fun k hk => ho k (h.keys_perm.mem_iff.mpr hk)

/-- Sizes do not depend on the order of entries. -/
lemma Small.of_same {o o' : XpcObject} (h : Same o o') (ho : Small o) : Small o' := by
  refine Everywhere.of_same (fun {o o'} h ho => ?_) h ho
  rcases h.eq_or with rfl | ⟨_, _, rfl, rfl, hitems⟩ | ⟨_, _, _, rfl, rfl, hperm, hentries⟩
  · exact ho
  · exact hitems.length_eq.ge.trans_lt ho
  · exact ⟨(hentries.length_eq.trans hperm.length_eq).ge.trans_lt ho.1,
      fun k hk => ho.2 k (h.keys_perm.mem_iff.mpr hk)⟩

end XpcObject

end Asteros.Xpc
