import Asteros.Libc.Ascii

set_option autoImplicit false

/-!
# Core Foundation objects

The object graphs that property lists, JSON documents and archives are made of. Foundation's
classes are bridged to the same objects, so there is one type for both. A `CFString` is a byte
buffer with a length, whose encoding nothing checks; a `CFDictionary` is the pair of its key and
value vectors, in insertion order.

## Main definitions

* `CFObject` — an object graph.
* `cfDictionarySetValue` — find-or-append.
* `CFObject.Everywhere` — a property of every object of a graph.
* `CFObject.IsPlist` — booleans, NUL-free strings, integers, data, arrays and dictionaries with
  pairwise distinct keys.
* `CFObject.NulFree` — graphs with C strings only.

## Main results

* `foldl_setValue` — storing distinct keys one by one appends them.
-/

namespace Asteros.CoreFoundation

open Asteros.Libc

/-- An object graph. `δ` stands for the doubles a `CFNumber` can hold; a date is its number of
seconds since 1970. -/
inductive CFObject (δ : Type) where
  | null
  | boolean (b : Bool)
  | integer (v : BitVec 64)
  | real (d : δ)
  | string (bytes : List UInt8)
  | data (bytes : List UInt8)
  | date (secs : BitVec 64)
  | array (values : List (CFObject δ))
  | dictionary (entries : List (List UInt8 × CFObject δ))

variable {δ : Type}

namespace CFObject

/-- Induction over an object graph: a property of every value of an array holds of the array, and
one of every value of a dictionary holds of the dictionary. -/
lemma graphInduction {P : CFObject δ → Prop} (null : P .null) (boolean : ∀ b, P (.boolean b))
    (integer : ∀ v, P (.integer v)) (real : ∀ d, P (.real d)) (string : ∀ bs, P (.string bs))
    (data : ∀ bs, P (.data bs)) (date : ∀ s, P (.date s))
    (array : ∀ xs, (∀ x ∈ xs, P x) → P (.array xs))
    (dictionary : ∀ es, (∀ e ∈ es, P e.2) → P (.dictionary es)) (o : CFObject δ) : P o := by
  refine @CFObject.rec δ P (fun xs => ∀ x ∈ xs, P x) (fun es => ∀ e ∈ es, P e.2)
    (fun e => P e.2) null boolean integer real string data date array dictionary ?_ ?_ ?_ ?_ ?_ o
  · simp
  · intro x xs hx hxs y hy
    rcases List.mem_cons.mp hy with rfl | hy
    · exact hx
    · exact hxs y hy
  · simp
  · intro e es he hes f hf
    rcases List.mem_cons.mp hf with rfl | hf
    · exact he
    · exact hes f hf
  · exact fun _ _ h => h

end CFObject

/-! ## Dictionaries -/

/-- The entries of a dictionary, in insertion order. -/
abbrev Entries (δ : Type) := List (List UInt8 × CFObject δ)

/-- `CFDictionaryGetValue`: the value of the first key that is equal. -/
def cfDictionaryGetValue : Entries δ → List UInt8 → Option (CFObject δ)
  | [], _ => none
  | (k, v) :: es, key => if k = key then some v else cfDictionaryGetValue es key

/-- `CFDictionarySetValue`: replace the value of the first equal key, or append. -/
def cfDictionarySetValue : Entries δ → List UInt8 → CFObject δ → Entries δ
  | [], key, value => [(key, value)]
  | (k, v) :: es, key, value =>
    if k = key then (k, value) :: es else (k, v) :: cfDictionarySetValue es key value

/-- The keys of a dictionary, in order. -/
def keys (es : Entries δ) : List (List UInt8) := es.map Prod.fst

/-- A new key is appended. -/
lemma setValue_of_notMem {es : Entries δ} {key : List UInt8} (h : key ∉ keys es)
    (value : CFObject δ) : cfDictionarySetValue es key value = es ++ [(key, value)] := by
  induction es with
  | nil => rfl
  | cons e es ih =>
    obtain ⟨k, v⟩ := e
    simp only [keys, List.map_cons, List.mem_cons, not_or] at h
    rw [cfDictionarySetValue, if_neg (Ne.symm h.1), ih h.2, List.cons_append]

/-- What is stored is an entry that was there, or the new key with the new value. -/
lemma mem_setValue {es : Entries δ} {key : List UInt8} {value : CFObject δ}
    {e : List UInt8 × CFObject δ} (he : e ∈ cfDictionarySetValue es key value) :
    e ∈ es ∨ e = (key, value) := by
  induction es with
  | nil => exact Or.inr (List.mem_singleton.mp he)
  | cons f es ih =>
    obtain ⟨k, v⟩ := f
    rw [cfDictionarySetValue] at he
    split_ifs at he with hk
    · rcases List.mem_cons.mp he with rfl | he
      · exact Or.inr (by rw [hk])
      · exact Or.inl (List.mem_cons_of_mem _ he)
    · rcases List.mem_cons.mp he with rfl | he
      · exact Or.inl List.mem_cons_self
      · exact (ih he).imp_left (List.mem_cons_of_mem _)

/-- **Storing distinct keys one by one appends them in order.** -/
lemma foldl_setValue {es acc : Entries δ} (h : (keys (acc ++ es)).Nodup) :
    es.foldl (fun d e => cfDictionarySetValue d e.1 e.2) acc = acc ++ es := by
  induction es generalizing acc with
  | nil => simp
  | cons e es ih =>
    have hnot : e.1 ∉ keys acc := fun hmem => by
      rw [keys, List.map_append, List.map_cons] at h
      exact (List.nodup_append.mp h).2.2 _ hmem _ List.mem_cons_self rfl
    have hassoc : acc ++ [e] ++ es = acc ++ e :: es := by simp
    rw [List.foldl_cons, setValue_of_notMem hnot, ih (by rw [hassoc]; exact h), hassoc]

/-! ## Properties of a whole graph -/

namespace CFObject

mutual
/-- The object and everything below it satisfy `P`. -/
def Everywhere (P : CFObject δ → Prop) : CFObject δ → Prop
  | .array xs => P (.array xs) ∧ EverywhereValues P xs
  | .dictionary es => P (.dictionary es) ∧ EverywhereEntries P es
  | o => P o

/-- The values of an array satisfy `P` everywhere. -/
def EverywhereValues (P : CFObject δ → Prop) : List (CFObject δ) → Prop
  | [] => True
  | x :: xs => Everywhere P x ∧ EverywhereValues P xs

/-- The values of a dictionary satisfy `P` everywhere. -/
def EverywhereEntries (P : CFObject δ → Prop) : Entries δ → Prop
  | [] => True
  | (_, v) :: es => Everywhere P v ∧ EverywhereEntries P es
end

variable {P Q : CFObject δ → Prop}

/-- The values of an array, as a quantified statement. -/
lemma everywhereValues_iff (xs : List (CFObject δ)) :
    EverywhereValues P xs ↔ ∀ x ∈ xs, Everywhere P x := by
  induction xs with
  | nil => simp [EverywhereValues]
  | cons x xs ih => simp [EverywhereValues, ih]

/-- The values of a dictionary, as a quantified statement. -/
lemma everywhereEntries_iff (es : Entries δ) :
    EverywhereEntries P es ↔ ∀ e ∈ es, Everywhere P e.2 := by
  induction es with
  | nil => simp [EverywhereEntries]
  | cons e es ih =>
    obtain ⟨k, v⟩ := e
    simp [EverywhereEntries, ih]

/-- Induction over a graph in which `A` holds everywhere. -/
lemma everywhere_induction {A P : CFObject δ → Prop} (null : A .null → P .null)
    (boolean : ∀ b, A (.boolean b) → P (.boolean b))
    (integer : ∀ v, A (.integer v) → P (.integer v)) (real : ∀ d, A (.real d) → P (.real d))
    (string : ∀ bs, A (.string bs) → P (.string bs)) (data : ∀ bs, A (.data bs) → P (.data bs))
    (date : ∀ s, A (.date s) → P (.date s))
    (array : ∀ xs, A (.array xs) → (∀ x ∈ xs, P x) → P (.array xs))
    (dictionary : ∀ es, A (.dictionary es) → (∀ e ∈ es, P e.2) → P (.dictionary es))
    {o : CFObject δ} (ho : Everywhere A o) : P o := by
  induction o using graphInduction with
  | null => exact null ho
  | boolean b => exact boolean b ho
  | integer v => exact integer v ho
  | real d => exact real d ho
  | string bs => exact string bs ho
  | data bs => exact data bs ho
  | date s => exact date s ho
  | array xs ih =>
    exact array xs ho.1 fun x hx => ih x hx ((everywhereValues_iff xs).mp ho.2 x hx)
  | dictionary es ih =>
    exact dictionary es ho.1 fun e he => ih e he ((everywhereEntries_iff es).mp ho.2 e he)

/-- A weaker property holds everywhere. -/
lemma Everywhere.imp (h : ∀ o, P o → Q o) {o : CFObject δ} (ho : Everywhere P o) :
    Everywhere Q o := by
  refine everywhere_induction (P := Everywhere Q) (h _) (fun _ => h _) (fun _ => h _) (fun _ => h _)
    (fun _ => h _) (fun _ => h _) (fun _ => h _) (fun xs hx ih => ?_) (fun es he ih => ?_) ho
  · exact ⟨h _ hx, (everywhereValues_iff xs).mpr ih⟩
  · exact ⟨h _ he, (everywhereEntries_iff es).mpr ih⟩

/-- Two properties hold everywhere exactly when both do. -/
lemma everywhere_and {o : CFObject δ} :
    Everywhere (fun o => P o ∧ Q o) o ↔ Everywhere P o ∧ Everywhere Q o := by
  refine ⟨fun h => ⟨h.imp fun _ h => h.1, h.imp fun _ h => h.2⟩, ?_⟩
  rintro ⟨hP, hQ⟩
  induction o using graphInduction with
  | array xs ih =>
    have hxs := (everywhereValues_iff xs).mp hP.2
    have hxs' := (everywhereValues_iff xs).mp hQ.2
    exact ⟨⟨hP.1, hQ.1⟩, (everywhereValues_iff xs).mpr fun x hx => ih x hx (hxs x hx) (hxs' x hx)⟩
  | dictionary es ih =>
    have hes := (everywhereEntries_iff es).mp hP.2
    have hes' := (everywhereEntries_iff es).mp hQ.2
    exact ⟨⟨hP.1, hQ.1⟩, (everywhereEntries_iff es).mpr fun e he => ih e he (hes e he) (hes' e he)⟩
  | _ => exact ⟨hP, hQ⟩

/-- The object belongs to the types that both property list codecs represent: strings without a
NUL, and dictionaries whose keys are such strings and pairwise distinct. -/
def PlistAt : CFObject δ → Prop
  | .null => False
  | .real _ => False
  | .date _ => False
  | .string bs => 0 ∉ bs
  | .dictionary es => (keys es).Nodup ∧ ∀ k ∈ keys es, 0 ∉ k
  | _ => True

/-- The graph is a property list of booleans, NUL-free strings, integers, data, arrays and
dictionaries with pairwise distinct keys. -/
def IsPlist : CFObject δ → Prop := Everywhere PlistAt

/-- There is no NUL in the object if it is a string, or in its keys if it is a dictionary. -/
def NulFreeAt : CFObject δ → Prop
  | .string bs => 0 ∉ bs
  | .dictionary es => ∀ k ∈ keys es, 0 ∉ k
  | _ => True

/-- There is no NUL in the strings and keys of the graph. -/
def NulFree : CFObject δ → Prop := Everywhere NulFreeAt

end CFObject

end Asteros.CoreFoundation
