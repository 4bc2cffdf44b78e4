import Asteros.Lib.KeyedList

set_option autoImplicit false

/-!
# Dictionaries

`CFDictionary.c`: two arrays, searched from the front with the callback of the keys. The mutating
functions never add a key that is there, but `CFDictionaryCreate` takes its arrays as they are, so a
dictionary is a finite map exactly as long as no such array has a key twice.

## Main definitions

* `CallBacks` — the callbacks of keys and values.
* `Dictionary` — `struct __CFDictionary`.
* `History` — how a dictionary has come about.
* `History.lookup` — the map it should be.
* `BehavesAsMap` — the dictionary is that map.

## Main results

* `behavesAsMap_iff` — which dictionaries are.
-/

namespace Asteros.CoreFoundation

open KeyedList

variable {κ ν : Type} [DecidableEq κ]

/-! ## The implementation -/

/-- `CFDictionaryKeyCallBacks`, as far as it changes what is stored or found; a null pointer is
`none`. -/
structure KeyCallBacks (κ : Type) where
  retain : Option (κ → κ)
  equal : Option (κ → κ → Bool)

/-- `CFDictionaryValueCallBacks`, likewise. -/
structure ValueCallBacks (ν : Type) where
  retain : Option (ν → ν)

/-- The callbacks a dictionary is created with. -/
structure CallBacks (κ ν : Type) where
  key : Option (KeyCallBacks κ)
  value : Option (ValueCallBacks ν)

namespace CallBacks

variable (cb : CallBacks κ ν)

/-- What is stored for a key. -/
def retainKey (k : κ) : κ :=
  match cb.key.bind KeyCallBacks.retain with
  | some retain => retain k
  | none => k

/-- What is stored for a value. -/
def retainValue (v : ν) : ν :=
  match cb.value.bind ValueCallBacks.retain with
  | some retain => retain v
  | none => v

/-- `dictKeyEqual`. -/
def keyEqual (a b : κ) : Bool :=
  match cb.key.bind KeyCallBacks.equal with
  | some equal => equal a b
  | none => a == b

end CallBacks

/-- `struct __CFDictionary`: the used parts of the two arrays are equally long and fit. -/
structure Dictionary (κ ν : Type) where
  keys : List κ
  values : List ν
  capacity : ℕ
  aligned : keys.length = values.length
  room : keys.length ≤ capacity

namespace Dictionary

variable (cb : CallBacks κ ν) (d : Dictionary κ ν)

/-- `CFDictionaryGetCount`. -/
def getCount : ℕ := d.keys.length

/-- `dictFind`. -/
def dictFind (key : κ) : Option ℕ := d.keys.findIdx? fun k => cb.keyEqual k key

/-- `CFDictionaryContainsKey`. -/
def containsKey (key : κ) : Bool := (d.dictFind cb key).isSome

/-- `CFDictionaryGetValue`, where `null` is the null pointer. -/
def getValue (null : ν) (key : κ) : ν :=
  match d.dictFind cb key with
  | none => null
  | some i => d.values.getD i null

/-- `CFDictionaryGetValueIfPresent`. -/
def getValueIfPresent (key : κ) : Option ν := (d.dictFind cb key).bind fun i => d.values[i]?

/-- The loop of `dictEnsureCapacity`, at most so many times. -/
def growCapacity (needed : ℕ) : ℕ → ℕ → ℕ
  | 0, capacity => capacity
  | rounds + 1, capacity =>
    if capacity < needed then growCapacity needed rounds (capacity * 2) else capacity

/-- The capacity grows as far as it is needed. -/
lemma le_growCapacity {needed rounds capacity : ℕ} (hpos : 0 < capacity)
    (h : needed ≤ capacity + rounds) : needed ≤ growCapacity needed rounds capacity := by
  induction rounds generalizing capacity with
  | zero => exact h
  | succ rounds ih =>
    rw [growCapacity]
    split_ifs with hsmall
    · exact ih (by omega) (by omega)
    · exact not_lt.mp hsmall

/-- `dictAlloc`. -/
def dictAlloc (capacity : ℤ) : Dictionary κ ν where
  keys := []
  values := []
  capacity := (max 4 capacity).toNat
  aligned := rfl
  room := Nat.zero_le _

/-- A copy of two arrays, next to each other, in a new dictionary with some capacity. -/
def copyInto (capacity : ℤ) (entries : List (κ × ν))
    (hroom : entries.length ≤ (max 4 capacity).toNat) : Dictionary κ ν where
  keys := entries.map fun e => cb.retainKey e.1
  values := entries.map fun e => cb.retainValue e.2
  capacity := (max 4 capacity).toNat
  aligned := by rw [List.length_map, List.length_map]
  room := by rwa [List.length_map]

/-- `CFDictionaryCreate`. -/
def create (entries : List (κ × ν)) : Dictionary κ ν :=
  copyInto cb entries.length entries (by omega)

/-- `CFDictionaryCreateMutable`. -/
def createMutable (capacity : ℤ) : Dictionary κ ν := dictAlloc capacity

/-- `CFDictionaryCreateCopy`. -/
def createCopy : Dictionary κ ν := create cb (d.keys.zip d.values)

/-- `CFDictionaryCreateMutableCopy`. -/
def createMutableCopy (capacity : ℤ) : Dictionary κ ν :=
  copyInto cb (max capacity d.getCount) (d.keys.zip d.values) (by
    have haligned := d.aligned
    rw [List.length_zip, getCount]
    omega)

/-- The part of `CFDictionarySetValue` that adds an entry. -/
def append (key : κ) (value : ν) : Dictionary κ ν where
  keys := d.keys ++ [cb.retainKey key]
  values := d.values ++ [cb.retainValue value]
  capacity := growCapacity (d.getCount + 1) (d.getCount + 1) (max 1 d.capacity)
  aligned := by rw [List.length_append, List.length_append, d.aligned]; rfl
  room := by
    rw [List.length_append, List.length_singleton]
    exact le_growCapacity (show 0 < max 1 d.capacity by omega)
      (show d.keys.length + 1 ≤ max 1 d.capacity + (d.keys.length + 1) by omega)

/-- `CFDictionarySetValue`. -/
def setValue (key : κ) (value : ν) : Dictionary κ ν :=
  match d.dictFind cb key with
  | some i =>
    { d with
      values := d.values.set i (cb.retainValue value)
      aligned := by rw [List.length_set, d.aligned] }
  | none => d.append cb key value

/-- `CFDictionaryAddValue`. -/
def addValue (key : κ) (value : ν) : Dictionary κ ν :=
  match d.dictFind cb key with
  | some _ => d
  | none => d.setValue cb key value

/-- `CFDictionaryRemoveValue`. -/
def removeValue (key : κ) : Dictionary κ ν :=
  match d.dictFind cb key with
  | none => d
  | some i =>
    { d with
      keys := d.keys.eraseIdx i
      values := d.values.eraseIdx i
      aligned := by rw [List.length_eraseIdx, List.length_eraseIdx, d.aligned]
      room := (List.length_eraseIdx_le d.keys i).trans d.room }

/-- `CFDictionaryRemoveAllValues`. -/
def removeAllValues : Dictionary κ ν where
  keys := []
  values := []
  capacity := d.capacity
  aligned := rfl
  room := Nat.zero_le _

end Dictionary

/-! ## Histories -/

/-- The functions that change a dictionary. -/
inductive DictionaryOp (κ ν : Type) where
  | setValue (key : κ) (value : ν)
  | addValue (key : κ) (value : ν)
  | removeValue (key : κ)
  | removeAllValues

/-- How a dictionary has come about. -/
inductive History (κ ν : Type) where
  | create (entries : List (κ × ν))
  | createMutable (capacity : ℤ)
  | createCopy (source : History κ ν)
  | createMutableCopy (capacity : ℤ) (source : History κ ν)
  | step (before : History κ ν) (op : DictionaryOp κ ν)

namespace History

variable (cb : CallBacks κ ν)

/-- The dictionary. -/
def dictionary : History κ ν → Dictionary κ ν
  | .create entries => .create cb entries
  | .createMutable capacity => .createMutable capacity
  | .createCopy source => source.dictionary.createCopy cb
  | .createMutableCopy capacity source => source.dictionary.createMutableCopy cb capacity
  | .step before (.setValue key value) => before.dictionary.setValue cb key value
  | .step before (.addValue key value) => before.dictionary.addValue cb key value
  | .step before (.removeValue key) => before.dictionary.removeValue cb key
  | .step before .removeAllValues => before.dictionary.removeAllValues

/-- The map it should be: the value of a key is that of the last set, or of the last add when there
was none. -/
def lookup : History κ ν → κ → Option ν
  | .create entries, k => (find cb.keyEqual entries k).map cb.retainValue
  | .createMutable _, _ => none
  | .createCopy source, k => (source.lookup k).map cb.retainValue
  | .createMutableCopy _ source, k => (source.lookup k).map cb.retainValue
  | .step before (.setValue key value), k =>
    if cb.keyEqual key k then some (cb.retainValue value) else before.lookup k
  | .step before (.addValue key value), k =>
    if cb.keyEqual key k ∧ before.lookup key = none then some (cb.retainValue value)
    else before.lookup k
  | .step before (.removeValue key), k => if cb.keyEqual key k then none else before.lookup k
  | .step _ .removeAllValues, _ => none

/-- The dictionary and all that have been on the way to it. -/
def stages : History κ ν → List (History κ ν)
  | .create entries => [.create entries]
  | .createMutable capacity => [.createMutable capacity]
  | .createCopy source => .createCopy source :: source.stages
  | .createMutableCopy capacity source => .createMutableCopy capacity source :: source.stages
  | .step before op => .step before op :: before.stages

end History

/-- **The dictionary is a finite map**: its keys are pairwise unequal, their number is the number of
keys of the map, and searching gives what the map has. -/
structure BehavesAsMap (cb : CallBacks κ ν) (law : Lawful cb.keyEqual) (h : History κ ν) :
    Prop where
  distinct : (h.dictionary cb).keys.Pairwise fun a b => cb.keyEqual a b = false
  count : (h.dictionary cb).getCount = (domain law (h.lookup cb)).ncard
  value : ∀ key, (h.dictionary cb).getValueIfPresent cb key = h.lookup cb key
  valueOrNull : ∀ null key, (h.dictionary cb).getValue cb null key = (h.lookup cb key).getD null
  contains : ∀ key, (h.dictionary cb).containsKey cb key = (h.lookup cb key).isSome

/-! ## The arrays as one list -/

namespace Dictionary

variable (cb : CallBacks κ ν) (d : Dictionary κ ν)

/-- The entries. -/
def entries : List (κ × ν) := d.keys.zip d.values

omit [DecidableEq κ] in
/-- The keys of the entries. -/
lemma map_fst_entries : d.entries.map Prod.fst = d.keys := List.map_fst_zip d.aligned.le

omit [DecidableEq κ] in
/-- There are as many. -/
lemma length_entries : d.entries.length = d.getCount := by
  rw [getCount, ← d.map_fst_entries, List.length_map]

/-- The entries are searched. -/
lemma getValueIfPresent_eq (key : κ) :
    d.getValueIfPresent cb key = find cb.keyEqual d.entries key :=
  (find_zip d.aligned key).symm

/-- Without a value, the null pointer. -/
lemma getValue_eq (null : ν) (key : κ) :
    d.getValue cb null key = (d.getValueIfPresent cb key).getD null := by
  unfold getValue getValueIfPresent
  cases d.dictFind cb key with
  | none => rfl
  | some i => rfl

/-- A key is there if it has a value. -/
lemma containsKey_eq (key : κ) :
    d.containsKey cb key = (find cb.keyEqual d.entries key).isSome := by
  rw [← getValueIfPresent_eq, containsKey, getValueIfPresent]
  cases hfind : d.dictFind cb key with
  | none => rfl
  | some i =>
    obtain ⟨hi, -⟩ := List.findIdx?_eq_some_iff_getElem.mp hfind
    rw [d.aligned] at hi
    rw [Option.bind_some, List.getElem?_eq_getElem hi]
    rfl

/-- A key is not found if it has no value. -/
lemma dictFind_eq_none_iff (key : κ) :
    d.dictFind cb key = none ↔ find cb.keyEqual d.entries key = none := by
  have hcontains := d.containsKey_eq cb key
  rw [containsKey] at hcontains
  rw [← Option.isNone_iff_eq_none, ← Option.isNone_iff_eq_none, ← Option.not_isSome,
    ← Option.not_isSome, hcontains]

omit [DecidableEq κ] in
/-- The entries of a copy. -/
lemma entries_copyInto (capacity : ℤ) (es : List (κ × ν))
    (hroom : es.length ≤ (max 4 capacity).toNat) : (copyInto cb capacity es hroom).entries =
      es.map fun e => (cb.retainKey e.1, cb.retainValue e.2) :=
  List.zip_map' ..

omit [DecidableEq κ] in
/-- The entries of a new dictionary. -/
lemma entries_create (es : List (κ × ν)) :
    (create cb es).entries = es.map fun e => (cb.retainKey e.1, cb.retainValue e.2) :=
  entries_copyInto cb es.length es (by omega)

omit [DecidableEq κ] in
/-- The entries of a mutable copy. -/
lemma entries_createMutableCopy (capacity : ℤ) : (d.createMutableCopy cb capacity).entries =
    d.entries.map fun e => (cb.retainKey e.1, cb.retainValue e.2) := by
  unfold createMutableCopy
  rw [entries_copyInto]
  rfl

/-- The entries after a set. -/
lemma entries_setValue (key : κ) (value : ν) : (d.setValue cb key value).entries =
    if find cb.keyEqual d.entries key = none then
      d.entries ++ [(cb.retainKey key, cb.retainValue value)]
    else replace cb.keyEqual key (cb.retainValue value) d.entries := by
  have hiff := d.dictFind_eq_none_iff cb key
  unfold setValue
  cases hfind : d.dictFind cb key with
  | none =>
    rw [if_pos (hiff.mp hfind)]
    exact List.zip_append d.aligned
  | some i =>
    rw [if_neg fun hnone => by rw [hiff.mpr hnone] at hfind; cases hfind]
    exact (replace_zip hfind).symm

/-- The entries after an add. -/
lemma entries_addValue (key : κ) (value : ν) : (d.addValue cb key value).entries =
    if find cb.keyEqual d.entries key = none then
      d.entries ++ [(cb.retainKey key, cb.retainValue value)]
    else d.entries := by
  have hiff := d.dictFind_eq_none_iff cb key
  unfold addValue
  cases hfind : d.dictFind cb key with
  | none => rw [if_pos (hiff.mp hfind), entries_setValue, if_pos (hiff.mp hfind)]
  | some i => rw [if_neg fun hnone => by rw [hiff.mpr hnone] at hfind; cases hfind]

/-- The entries after a removal. -/
lemma entries_removeValue (key : κ) :
    (d.removeValue cb key).entries = erase cb.keyEqual key d.entries := by
  unfold removeValue
  cases hfind : d.dictFind cb key with
  | none =>
    have hnone := (d.dictFind_eq_none_iff cb key).mp hfind
    exact (erase_of_find_none hnone).symm
  | some i => exact (erase_zip hfind).symm

end Dictionary

/-! ## Which dictionaries are maps -/

section Maps

variable {cb : CallBacks κ ν} {law : Lawful cb.keyEqual} {h : History κ ν}

/-- Distinct keys, and what is found, make a map. -/
lemma behavesAsMap_of_entries (hdistinct : Distinct cb.keyEqual (h.dictionary cb).entries)
    (hfind : ∀ key, find cb.keyEqual (h.dictionary cb).entries key = h.lookup cb key) :
    BehavesAsMap cb law h where
  distinct := by
    rw [← Dictionary.map_fst_entries]
    exact distinct_iff.mp hdistinct
  count := by
    rw [← Dictionary.length_entries, ← ncard_domain law hdistinct]
    congr 2
    funext key
    exact hfind key
  value := fun key => ((h.dictionary cb).getValueIfPresent_eq cb key).trans (hfind key)
  valueOrNull := fun null key => by
    rw [Dictionary.getValue_eq, Dictionary.getValueIfPresent_eq, hfind]
  contains := fun key => by rw [Dictionary.containsKey_eq, hfind]

/-- And the other way round. -/
lemma BehavesAsMap.entries (hmap : BehavesAsMap cb law h) :
    Distinct cb.keyEqual (h.dictionary cb).entries ∧
      ∀ key, find cb.keyEqual (h.dictionary cb).entries key = h.lookup cb key := by
  refine ⟨distinct_iff.mpr ?_, fun key => ?_⟩
  · rw [Dictionary.map_fst_entries]
    exact hmap.distinct
  · rw [← Dictionary.getValueIfPresent_eq]
    exact hmap.value key

/-- Retaining keys and values changes what is found as it changes values. -/
lemma find_map_retain (hretain : ∀ k, cb.keyEqual (cb.retainKey k) k = true)
    (law : Lawful cb.keyEqual) (es : List (κ × ν)) (k : κ) :
    find cb.keyEqual (es.map fun e => (cb.retainKey e.1, cb.retainValue e.2)) k =
      (find cb.keyEqual es k).map cb.retainValue := by
  induction es with
  | nil => rfl
  | cons e es ih =>
    have hsame : cb.keyEqual (cb.retainKey e.1) k = cb.keyEqual e.1 k := by
      rw [law.comm, law.congr (hretain e.1) k, law.comm]
    rw [List.map_cons, find_cons, find_cons, ih, hsame]
    split
    · rfl
    · rfl

/-- Retained keys are distinct if the keys are. -/
lemma distinct_map_retain (hretain : ∀ k, cb.keyEqual (cb.retainKey k) k = true)
    (law : Lawful cb.keyEqual) (es : List (κ × ν)) :
    Distinct cb.keyEqual (es.map fun e => (cb.retainKey e.1, cb.retainValue e.2)) ↔
      Distinct cb.keyEqual es := by
  have hsame : ∀ a b, cb.keyEqual (cb.retainKey a) (cb.retainKey b) = cb.keyEqual a b := by
    intro a b
    rw [law.congr (hretain b) (cb.retainKey a), law.comm, law.congr (hretain a) b, law.comm]
  unfold Distinct
  rw [List.pairwise_map]
  refine List.Pairwise.iff fun a b => ?_
  rw [hsame]

/-- **Setting a value keeps a map.** -/
lemma BehavesAsMap.setValue (hretain : ∀ k, cb.keyEqual (cb.retainKey k) k = true)
    (hmap : BehavesAsMap cb law h) (key : κ) (value : ν) :
    BehavesAsMap cb law (.step h (.setValue key value)) := by
  obtain ⟨hdistinct, hfind⟩ := hmap.entries
  have hentries := (h.dictionary cb).entries_setValue cb key value
  by_cases hnone : find cb.keyEqual (h.dictionary cb).entries key = none
  · rw [if_pos hnone] at hentries
    refine behavesAsMap_of_entries ?_ fun k => ?_
    · rw [History.dictionary, hentries]
      refine hdistinct.concat ?_ _
      rw [find_congr law (hretain key)]
      exact hnone
    · rw [History.dictionary, hentries, find_append, find_cons, History.lookup, ← hfind]
      have hsame : cb.keyEqual (cb.retainKey key) k = cb.keyEqual key k := by
        rw [law.comm, law.congr (hretain key) k, law.comm]
      rw [hsame]
      by_cases hk : cb.keyEqual key k = true
      · rw [if_pos hk, if_pos hk, ← find_congr law hk, hnone]
        rfl
      · rw [if_neg hk, if_neg hk]
        exact Option.or_none
  · rw [if_neg hnone] at hentries
    refine behavesAsMap_of_entries ?_ fun k => ?_
    · rw [History.dictionary, hentries]
      exact hdistinct.replace key _
    · have hsome : (find cb.keyEqual (h.dictionary cb).entries key).isSome = true :=
        Option.isSome_iff_ne_none.mpr hnone
      rw [History.dictionary, hentries, find_replace law, History.lookup, ← hfind]
      by_cases hk : cb.keyEqual key k = true
      · rw [if_pos ⟨hk, hsome⟩, if_pos hk]
      · rw [if_neg fun hboth => hk hboth.1, if_neg hk]

/-- **So does adding one.** -/
lemma BehavesAsMap.addValue (hretain : ∀ k, cb.keyEqual (cb.retainKey k) k = true)
    (hmap : BehavesAsMap cb law h) (key : κ) (value : ν) :
    BehavesAsMap cb law (.step h (.addValue key value)) := by
  obtain ⟨hdistinct, hfind⟩ := hmap.entries
  have hentries := (h.dictionary cb).entries_addValue cb key value
  by_cases hnone : find cb.keyEqual (h.dictionary cb).entries key = none
  · have hset := (hmap.setValue hretain key value).entries
    have hentries' := (h.dictionary cb).entries_setValue cb key value
    rw [if_pos hnone] at hentries hentries'
    rw [History.dictionary, hentries', ← hentries] at hset
    refine behavesAsMap_of_entries hset.1 fun k => (hset.2 k).trans ?_
    rw [History.lookup, History.lookup]
    by_cases hk : cb.keyEqual key k = true
    · rw [if_pos hk, if_pos ⟨hk, (hfind key).symm.trans hnone⟩]
    · rw [if_neg hk, if_neg fun hboth => hk hboth.1]
  · rw [if_neg hnone] at hentries
    refine behavesAsMap_of_entries ?_ fun k => ?_
    · rw [History.dictionary, hentries]
      exact hdistinct
    · rw [History.dictionary, hentries, hfind, History.lookup,
        if_neg fun hboth => hnone ((hfind key).trans hboth.2)]

/-- **Removing a key keeps a map.** -/
lemma BehavesAsMap.removeValue (hmap : BehavesAsMap cb law h) (key : κ) :
    BehavesAsMap cb law (.step h (.removeValue key)) := by
  obtain ⟨hdistinct, hfind⟩ := hmap.entries
  have hentries := (h.dictionary cb).entries_removeValue cb key
  refine behavesAsMap_of_entries ?_ fun k => ?_
  · rw [History.dictionary, hentries]
    exact hdistinct.erase key
  · rw [History.dictionary, hentries, find_erase law hdistinct, History.lookup, hfind]

/-- An empty dictionary is a map. -/
lemma behavesAsMap_empty (hentries : (h.dictionary cb).entries = [])
    (hlookup : ∀ k, h.lookup cb k = none) : BehavesAsMap cb law h := by
  refine behavesAsMap_of_entries ?_ fun k => ?_
  · rw [hentries]
    exact List.Pairwise.nil
  · rw [hentries, hlookup]
    rfl

/-- A copy of a map is one. -/
lemma behavesAsMap_copy (hretain : ∀ k, cb.keyEqual (cb.retainKey k) k = true)
    {h' : History κ ν} (hmap : BehavesAsMap cb law h)
    (hentries : (h'.dictionary cb).entries =
      (h.dictionary cb).entries.map fun e => (cb.retainKey e.1, cb.retainValue e.2))
    (hlookup : ∀ k, h'.lookup cb k = (h.lookup cb k).map cb.retainValue) :
    BehavesAsMap cb law h' := by
  obtain ⟨hdistinct, hfind⟩ := hmap.entries
  refine behavesAsMap_of_entries ?_ fun k => ?_
  · rw [hentries]
    exact (distinct_map_retain hretain law _).mpr hdistinct
  · rw [hentries, find_map_retain hretain law, hfind, hlookup]

/-- A new dictionary is a map exactly if the keys are unequal. -/
lemma behavesAsMap_create_iff (hretain : ∀ k, cb.keyEqual (cb.retainKey k) k = true)
    (entries : List (κ × ν)) :
    BehavesAsMap cb law (.create entries) ↔ Distinct cb.keyEqual entries := by
  have hentries : ((History.create entries).dictionary cb).entries =
      entries.map fun e => (cb.retainKey e.1, cb.retainValue e.2) :=
    Dictionary.entries_create cb entries
  constructor
  · intro hmap
    have hdistinct := hmap.entries.1
    rw [hentries] at hdistinct
    exact (distinct_map_retain hretain law entries).mp hdistinct
  · intro hdistinct
    refine behavesAsMap_of_entries ?_ fun k => ?_
    · rw [hentries]
      exact (distinct_map_retain hretain law entries).mpr hdistinct
    · rw [hentries, find_map_retain hretain law]
      rfl

/-- **A history in which all new dictionaries have unequal keys** ends with a map. -/
lemma behavesAsMap_of_creates (hretain : ∀ k, cb.keyEqual (cb.retainKey k) k = true)
    (hcreate : ∀ entries, .create entries ∈ h.stages → Distinct cb.keyEqual entries) :
    BehavesAsMap cb law h := by
  induction h with
  | create entries =>
    exact (behavesAsMap_create_iff hretain entries).mpr (hcreate entries List.mem_cons_self)
  | createMutable capacity => exact behavesAsMap_empty rfl fun _ => rfl
  | createCopy source ih =>
    have hmap := ih fun entries he => hcreate entries (List.mem_cons_of_mem _ he)
    exact behavesAsMap_copy hretain hmap (Dictionary.entries_create cb _) fun _ => rfl
  | createMutableCopy capacity source ih =>
    have hmap := ih fun entries he => hcreate entries (List.mem_cons_of_mem _ he)
    exact behavesAsMap_copy hretain hmap (Dictionary.entries_createMutableCopy cb _ capacity)
      fun _ => rfl
  | step before op ih =>
    have hmap := ih fun entries he => hcreate entries (List.mem_cons_of_mem _ he)
    cases op with
    | setValue key value => exact hmap.setValue hretain key value
    | addValue key value => exact hmap.addValue hretain key value
    | removeValue key => exact hmap.removeValue key
    | removeAllValues => exact behavesAsMap_empty rfl fun _ => rfl

omit [DecidableEq κ] in
/-- What is on the way to a stage is on the way to the end. -/
lemma History.stages_subset {h h' : History κ ν} (hmem : h' ∈ h.stages) : h'.stages ⊆ h.stages := by
  have hcons : ∀ a b : History κ ν, a.stages = a :: b.stages → (h' ∈ b.stages →
      h'.stages ⊆ b.stages) → h' ∈ a.stages → h'.stages ⊆ a.stages := by
    intro a b hstages ih hmem
    rw [hstages] at hmem
    rcases List.mem_cons.mp hmem with rfl | hmem
    · exact List.Subset.refl _
    · rw [hstages]
      exact List.subset_cons_of_subset _ (ih hmem)
  induction h with
  | create entries =>
    obtain rfl := List.mem_singleton.mp hmem
    exact List.Subset.refl _
  | createMutable capacity =>
    obtain rfl := List.mem_singleton.mp hmem
    exact List.Subset.refl _
  | createCopy source ih => exact hcons _ source rfl ih hmem
  | createMutableCopy capacity source ih => exact hcons _ source rfl ih hmem
  | step before op ih => exact hcons _ before rfl ih hmem

end Maps

/-- **All dictionaries of a history are finite maps** exactly if `CFDictionaryCreate` is only called
with keys that are pairwise unequal.

**Proof sketch.** Setting and adding look for the key first and removing takes one entry away, so
keys stay unequal and the entries found are those of the map; a copy has the same keys. -/
theorem behavesAsMap_iff {cb : CallBacks κ ν} (law : Lawful cb.keyEqual)
    (hretain : ∀ k, cb.keyEqual (cb.retainKey k) k = true) (h : History κ ν) :
    (∀ h' ∈ h.stages, BehavesAsMap cb law h') ↔
      ∀ entries, .create entries ∈ h.stages →
        entries.Pairwise fun a b => cb.keyEqual a.1 b.1 = false := by
  constructor
  · intro hmaps entries hmem
    exact (behavesAsMap_create_iff hretain entries).mp (hmaps _ hmem)
  · intro hcreate h' hmem
    exact behavesAsMap_of_creates hretain fun entries he =>
      hcreate entries (History.stages_subset hmem he)

/-! ## Two dictionaries of numbers -/

/-- Numbers as keys and values, without callbacks. -/
def numberCallBacks : CallBacks ℕ ℕ := ⟨none, none⟩

/-- Equality of numbers is an equivalence. -/
lemma numberCallBacks_lawful : Lawful numberCallBacks.keyEqual where
  refl k := beq_self_eq_true k
  symm h := beq_iff_eq.mpr (beq_iff_eq.mp h).symm
  trans h h' := beq_iff_eq.mpr ((beq_iff_eq.mp h).trans (beq_iff_eq.mp h'))

/-- A copy of a dictionary with two keys, one of which is then removed. -/
theorem behavesAsMap_iff_removed : BehavesAsMap numberCallBacks numberCallBacks_lawful
    (.step (.createMutableCopy 0 (.create [(1, 10), (2, 20)])) (.removeValue 1)) := by
  let h : History ℕ ℕ := .step (.createMutableCopy 0 (.create [(1, 10), (2, 20)])) (.removeValue 1)
  refine (behavesAsMap_iff numberCallBacks_lawful (fun k => beq_self_eq_true k) h).mpr ?_ h
    List.mem_cons_self
  intro entries hmem
  simp only [h, History.stages, List.mem_cons, reduceCtorEq, History.create.injEq, List.not_mem_nil,
    or_false, false_or] at hmem
  rw [hmem]
  decide

/-- A copy of a dictionary with a key twice, from which the key is then removed. -/
def doubled : History ℕ ℕ :=
  .step (.createMutableCopy 0 (.create [(1, 10), (1, 20)])) (.removeValue 1)

/-- **A key that is given twice is still there when it has been removed.** -/
theorem not_behavesAsMap_doubled :
    (doubled.dictionary numberCallBacks).containsKey numberCallBacks 1 = true ∧
      ¬BehavesAsMap numberCallBacks numberCallBacks_lawful doubled := by
  refine ⟨by decide, fun hmap => ?_⟩
  have hcontains := hmap.contains 1
  exact absurd hcontains (by decide)

end Asteros.CoreFoundation
