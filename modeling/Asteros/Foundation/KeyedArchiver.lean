import Asteros.Foundation.PropertyListRoundTrip

set_option autoImplicit false

/-!
# Keyed archives of property lists

`NSKeyedArchiver.m` for root objects that are property list graphs: the archive is the XML
property list of a dictionary with the root under the key `root`, where `nil` is stored as a null.
The property list writer skips nulls, so a null that was a value of a dictionary makes the whole
archive unreadable and one in an array is lost; strings are written up to their first NUL; and a
root dictionary with the key `$class` is taken for an archived object of that class.

## Main definitions

* `IsArchivable` — the graphs that archives are meant for.
* `Foundation.archivedDataWithRootObject`, `unarchiveObjectWithData` — the two classes.
* `Foundation.Unarchives` — a root survives being archived and unarchived.

## Main results

* `Foundation.readBack_eq_self_iff` — which graphs the property list codec gives back.
* `Foundation.unarchives_iff` — which roots survive.
-/

namespace Asteros.CoreFoundation.CFObject

variable {δ : Type}

/-- The object belongs to the types that archives support; strings are arbitrary, and the keys of
a dictionary are pairwise distinct. -/
def ArchivableAt : CFObject δ → Prop
  | .real _ => False
  | .date _ => False
  | .dictionary es => (keys es).Nodup
  | _ => True

/-- A graph of dictionaries, arrays, strings, integers, booleans, data and nulls. -/
def IsArchivable : CFObject δ → Prop := Everywhere ArchivableAt

/-- The graphs that the property list codec writes and reads as they are spelled are those
without a NUL. -/
lemma isGraph_iff (o : CFObject δ) : o.IsGraph ↔ o.IsArchivable ∧ o.NulFree := by
  have hat : (GraphAt : CFObject δ → Prop) = fun o => ArchivableAt o ∧ NulFreeAt o := by
    funext o
    cases o <;> simp [GraphAt, PlistAt, ArchivableAt, NulFreeAt]
  rw [IsGraph, hat]
  exact everywhere_and

/-- There is no null in the graph. -/
def NullFree : CFObject δ → Prop := Everywhere (· ≠ .null)

/-- A property list is a graph without nulls. -/
lemma isPlist_iff (o : CFObject δ) : o.IsPlist ↔ o.IsGraph ∧ o.NullFree := by
  have hat : (PlistAt : CFObject δ → Prop) = fun o => GraphAt o ∧ o ≠ .null := by
    funext o
    cases o <;> simp [PlistAt, GraphAt]
  rw [IsPlist, hat]
  exact everywhere_and

end Asteros.CoreFoundation.CFObject

namespace Asteros.Foundation

open Asteros.Libc Asteros.CoreFoundation

variable {δ : Type} (lib : Library δ)

/-! ## The archiver -/

/-- `-encodeObject:forKey:` of a property list graph or `nil`. -/
def encodeObject (dict : Entries δ) (object : Option (CFObject δ)) (key : List UInt8) :
    Entries δ :=
  cfDictionarySetValue dict key (object.getD .null)

/-- `+archivedDataWithRootObject:`. -/
def archivedDataWithRootObject (rootObject : Option (CFObject δ)) :
    Except Fault (Option (List UInt8)) :=
  dataWithPropertyList lib (.dictionary (encodeObject [] rootObject (ascii "root")))
    .xmlFormat_v1_0

/-! ## The unarchiver -/

/-- What `-decodeObjectForKey:` gives. -/
inductive Decoded (δ : Type) where
  /-- `nil`. -/
  | nil
  /-- An object of the property list. -/
  | object (o : CFObject δ)
  /-- What `-initWithCoder:` of a class makes of the properties, an object of that class. -/
  | instance' (cls : CString) (props : Option (CFObject δ))
  /-- A message that its receiver does not understand. -/
  | exception

/-- `-decodeObjectForKey:`, given which classes `objc_getClass` finds. The dictionary is `nil` when
the archive could not be read. -/
def decodeObjectForKey (registered : CString → Bool) (dict : Option (CFObject δ))
    (key : List UInt8) : Decoded δ :=
  match dict with
  | none => .nil
  | some (.dictionary entries) =>
    match cfDictionaryGetValue entries key with
    | none => .nil
    | some (.dictionary value) =>
      match cfDictionaryGetValue value (ascii "$class") with
      | none => .object (.dictionary value)
      | some (.string className) =>
        let cls := CString.ofBytes className
        if registered cls then .instance' cls (cfDictionaryGetValue value (ascii "$props"))
        else .nil
      | some _ => .exception
    | some value => .object value
  | some _ => .exception

/-- `+unarchiveObjectWithData:`. -/
def unarchiveObjectWithData (registered : CString → Bool) (data : List UInt8) :
    Except Fault (Decoded δ) := do
  let plist ← propertyListWithData lib data
  .ok (decodeObjectForKey registered plist (ascii "root"))

/-! ## What the property list codec gives back -/

/-- Only nulls are missing from what is read for an array. -/
private lemma length_readBackValues {xs ys : List (CFObject δ)} (h : readBackValues xs = some ys) :
    ys.length ≤ xs.length ∧ (.null ∈ xs → ys.length < xs.length) := by
  induction xs generalizing ys with
  | nil =>
    cases h
    simp
  | cons x xs ih =>
    cases x with
    | null =>
      obtain ⟨hle, -⟩ := ih (show readBackValues xs = some ys from h)
      simp only [List.length_cons]
      exact ⟨by omega, fun _ => by omega⟩
    | _ =>
      simp only [readBackValues, Option.bind_eq_bind, Option.bind_eq_some_iff] at h
      obtain ⟨y, -, zs, hzs, heq⟩ := h
      obtain rfl := Option.some.inj heq
      obtain ⟨hle, hlt⟩ := ih hzs
      refine ⟨by simpa using hle, fun hmem => ?_⟩
      have := hlt (by simpa using hmem)
      simpa using this

/-- An array that is given back has no nulls, and its values are given back. -/
private lemma readBackValues_self {xs : List (CFObject δ)} (h : readBackValues xs = some xs) :
    ∀ x ∈ xs, x ≠ .null ∧ readBack x = some x := by
  have hnull : .null ∉ xs := fun hmem => absurd ((length_readBackValues h).2 hmem) (lt_irrefl _)
  induction xs with
  | nil => simp
  | cons x xs ih =>
    rw [List.mem_cons, not_or] at hnull
    have hstep : ∃ y ys, readBack x = some y ∧ readBackValues xs = some ys ∧ y :: ys = x :: xs := by
      cases x with
      | null => exact absurd rfl hnull.1
      | _ =>
        simp only [readBackValues, Option.bind_eq_bind, Option.bind_eq_some_iff] at h
        obtain ⟨y, hy, ys, hys, heq⟩ := h
        exact ⟨y, ys, hy, hys, Option.some.inj heq⟩
    obtain ⟨y, ys, hy, hys, heq⟩ := hstep
    obtain ⟨rfl, rfl⟩ := List.cons.inj heq
    intro z hz
    rcases List.mem_cons.mp hz with rfl | hz
    · exact ⟨Ne.symm hnull.1, hy⟩
    · exact ih hys hnull.2 z hz

/-- A dictionary that is given back has no nulls as values, and its values are given back. -/
private lemma readBackEntries_self {es : Entries δ} (h : readBackEntries es = some es) :
    ∀ e ∈ es, e.2 ≠ .null ∧ readBack e.2 = some e.2 := by
  induction es with
  | nil => simp
  | cons e es ih =>
    obtain ⟨k, v⟩ := e
    have hstep : v ≠ .null ∧ ∃ w fs, readBack v = some w ∧ readBackEntries es = some fs ∧
        (k, w) :: fs = (k, v) :: es := by
      cases v with
      | null => cases h
      | _ =>
        simp only [readBackEntries, Option.bind_eq_bind, Option.bind_eq_some_iff] at h
        obtain ⟨w, hw, fs, hfs, heq⟩ := h
        exact ⟨by simp, w, fs, hw, hfs, Option.some.inj heq⟩
    obtain ⟨hne, w, fs, hw, hfs, heq⟩ := hstep
    obtain ⟨hkw, rfl⟩ := List.cons.inj heq
    obtain ⟨-, rfl⟩ := Prod.mk.inj hkw
    intro f hf
    rcases List.mem_cons.mp hf with rfl | hf
    · exact ⟨hne, hw⟩
    · exact ih hfs f hf

/-- **A graph is given back by the property list codec exactly when there is no null in it.** -/
theorem readBack_eq_self_iff {o : CFObject δ} (ho : o.IsGraph) (hnull : o ≠ .null) :
    readBack o = some o ↔ o.NullFree := by
  refine ⟨fun h => ?_, fun h => readBack_eq ((CFObject.isPlist_iff o).mpr ⟨ho, h⟩)⟩
  induction o using CFObject.graphInduction with
  | array xs ih =>
    have hvalues : readBackValues xs = some xs := by
      obtain ⟨ys, hys, heq⟩ := Option.map_eq_some_iff.mp h
      rw [hys, CFObject.array.inj heq]
    have hg := (CFObject.everywhereValues_iff xs).mp ho.2
    refine ⟨hnull, (CFObject.everywhereValues_iff xs).mpr fun x hx => ?_⟩
    obtain ⟨hne, hx'⟩ := readBackValues_self hvalues x hx
    exact ih x hx (hg x hx) hne hx'
  | dictionary es ih =>
    have hentries : readBackEntries es = some es := by
      obtain ⟨fs, hfs, heq⟩ := Option.map_eq_some_iff.mp h
      rw [hfs, CFObject.dictionary.inj heq]
    have hg := (CFObject.everywhereEntries_iff es).mp ho.2
    refine ⟨hnull, (CFObject.everywhereEntries_iff es).mpr fun e he => ?_⟩
    obtain ⟨hne, he'⟩ := readBackEntries_self hentries e he
    exact ih e he (hg e he) hne he'
  | _ => exact hnull

/-! ## Archives -/

/-- The root is a dictionary with a `$class` key. -/
def HasClassKey : CFObject δ → Prop
  | .dictionary es => ascii "$class" ∈ keys es
  | _ => False

/-- A key that is not in a dictionary has no value. -/
private lemma getValue_eq_none_iff (es : Entries δ) (key : List UInt8) :
    cfDictionaryGetValue es key = none ↔ key ∉ keys es := by
  induction es with
  | nil => simp [cfDictionaryGetValue, keys]
  | cons e es ih =>
    obtain ⟨k, v⟩ := e
    rw [cfDictionaryGetValue]
    split_ifs with hk
    · simp [keys, hk]
    · simpa [keys, Ne.symm hk] using ih

/-- The value of a key is that of an entry. -/
private lemma exists_mem_of_getValue {es : Entries δ} {key : List UInt8} {v : CFObject δ}
    (h : cfDictionaryGetValue es key = some v) : ∃ e ∈ es, e.2 = v := by
  induction es with
  | nil => cases h
  | cons e es ih =>
    obtain ⟨k, w⟩ := e
    rw [cfDictionaryGetValue] at h
    split_ifs at h with hk
    · exact ⟨(k, w), List.mem_cons_self, Option.some.inj h⟩
    · obtain ⟨f, hf, heq⟩ := ih h
      exact ⟨f, List.mem_cons_of_mem _ hf, heq⟩

/-- What is decoded for the root of a readable archive. -/
private lemma decode_root_iff (registered : CString → Bool) (o' o : CFObject δ) :
    decodeObjectForKey registered (some (.dictionary [(ascii "root", o')])) (ascii "root") =
      .object o ↔ o' = o ∧ ¬HasClassKey o' := by
  have hget : cfDictionaryGetValue [(ascii "root", o')] (ascii "root") = some o' := by
    simp [cfDictionaryGetValue]
  rw [decodeObjectForKey]
  simp only [hget]
  cases o' with
  | dictionary value =>
    simp only [HasClassKey]
    rw [← getValue_eq_none_iff]
    cases cfDictionaryGetValue value (ascii "$class") with
    | none => simp
    | some v =>
      cases v with
      | string className =>
        simp only [reduceCtorEq, and_false, iff_false]
        split_ifs
        · simp
        · simp
      | _ => simp
  | _ => simp [HasClassKey]

/-- What is read for a dictionary with one value. -/
private lemma readBack_singleton {o : CFObject δ} (hnull : o ≠ .null) (key : List UInt8) :
    readBack (.dictionary [(key, o)]) = (readBack o).map fun o' => .dictionary [(key, o')] := by
  have hentries : readBackEntries [(key, o)] = (do
      let w ← readBack o
      let fs ← readBackEntries ([] : Entries δ)
      some ((key, w) :: fs)) := by
    cases o with
    | null => exact absurd rfl hnull
    | _ => rfl
  rw [readBack, hentries]
  cases readBack o with
  | none => rfl
  | some o' => rfl

/-- What a root should be unarchived as. -/
def expected : Option (CFObject δ) → Decoded δ
  | none => .nil
  | some o => .object o

/-- The root survives: it is archived, and what is unarchived is the root. -/
def Unarchives (registered : CString → Bool) (rootObject : Option (CFObject δ)) : Prop :=
  ∃ data, archivedDataWithRootObject lib rootObject = .ok (some data) ∧
    unarchiveObjectWithData lib registered data = .ok (expected rootObject)

/-- What is unarchived, in terms of what the property list codec gives back. -/
private lemma unarchive_archived (registered : CString → Bool) {rootObject : Option (CFObject δ)}
    (h : ∀ o ∈ rootObject, o.IsGraph) :
    ∃ data, archivedDataWithRootObject lib rootObject = .ok (some data) ∧
      unarchiveObjectWithData lib registered data = .ok (decodeObjectForKey registered
        (readBack (.dictionary [(ascii "root", rootObject.getD .null)])) (ascii "root")) := by
  have hgraph : (CFObject.dictionary [(ascii "root", rootObject.getD .null)]).IsGraph := by
    refine ⟨⟨by simp [keys], by simp [keys, ascii, byte]⟩, ?_, trivial⟩
    cases rootObject with
    | none => exact trivial
    | some o => exact h o rfl
  refine ⟨document nsSpelling (.dictionary [(ascii "root", rootObject.getD .null)]),
    dataWithPropertyList_eq lib hgraph, ?_⟩
  rw [unarchiveObjectWithData, propertyListWithData_text lib nsSpelling hgraph (by simp), ok_bind]

/-- What is unarchived as an object has no NUL in it. -/
private lemma nulFree_of_unarchive {registered : CString → Bool} {data : List UInt8}
    {o : CFObject δ} (h : unarchiveObjectWithData lib registered data = .ok (.object o)) :
    o.NulFree := by
  obtain ⟨plist, hplist, hdecode⟩ := ok_of_bind h
  replace hdecode := Except.ok.inj hdecode
  have hvalue : ∃ entries, plist = some (.dictionary entries) ∧
      cfDictionaryGetValue entries (ascii "root") = some o := by
    unfold decodeObjectForKey at hdecode
    split at hdecode
    · cases hdecode
    · next entries =>
      refine ⟨entries, rfl, ?_⟩
      split at hdecode
      · cases hdecode
      · next value hget =>
        rw [hget]
        split at hdecode
        · injection hdecode with heq
          rw [heq]
        · dsimp only at hdecode
          split_ifs at hdecode
        · cases hdecode
      · next value _ hget =>
        injection hdecode with heq
        rw [hget, heq]
    · cases hdecode
  obtain ⟨entries, rfl, hget⟩ := hvalue
  have hentries := (propertyListWithData_nulFree hplist).2
  obtain ⟨e, he, rfl⟩ := exists_mem_of_getValue hget
  exact (CFObject.everywhereEntries_iff entries).mp hentries e he

/-- **A root survives exactly when it is `nil`, or has no null and no NUL in it and is no
dictionary with a `$class` key.**

**Proof sketch.** Everything that is read is free of NULs (`propertyListWithData_nulFree`). The
archive of a root without a NUL is the document of a dictionary with the root as its only value,
of which the codec gives back what it gives back of the root (`readBack_eq_self_iff`); a null as
the root leaves the key without a value. The decoder returns that root unless it finds a class in
it. -/
theorem unarchives_iff (registered : CString → Bool) {rootObject : Option (CFObject δ)}
    (h : ∀ o ∈ rootObject, o.IsArchivable) : Unarchives lib registered rootObject ↔
      ∀ o ∈ rootObject, o.NullFree ∧ o.NulFree ∧ ¬HasClassKey o := by
  have hnul : Unarchives lib registered rootObject → ∀ o ∈ rootObject, o.NulFree := by
    rintro ⟨data, -, hdata⟩ o ho
    rw [Option.mem_def.mp ho] at hdata
    exact nulFree_of_unarchive lib hdata
  by_cases hfree : ∀ o ∈ rootObject, o.NulFree
  swap
  · exact ⟨fun hu => absurd (hnul hu) hfree, fun hc => absurd (fun o ho => (hc o ho).2.1) hfree⟩
  have hgraph : ∀ o ∈ rootObject, o.IsGraph := fun o ho =>
    (CFObject.isGraph_iff o).mpr ⟨h o ho, hfree o ho⟩
  obtain ⟨data, hdata, hdecode⟩ := unarchive_archived lib registered hgraph
  have hiff : Unarchives lib registered rootObject ↔ decodeObjectForKey registered
      (readBack (.dictionary [(ascii "root", rootObject.getD .null)])) (ascii "root") =
        expected rootObject := by
    constructor
    · rintro ⟨data', hdata', hdecode'⟩
      rw [hdata] at hdata'
      cases hdata'
      rw [hdecode] at hdecode'
      exact Except.ok.inj hdecode'
    · exact fun heq => ⟨data, hdata, by rw [hdecode, heq]⟩
  rw [hiff]
  cases rootObject with
  | none => simp [readBack, readBackEntries, decodeObjectForKey, expected]
  | some o =>
    have ho := hgraph o rfl
    have hfree := hfree o rfl
    simp only [Option.getD_some, Option.mem_def, Option.some.injEq, forall_eq', expected, hfree,
      true_and]
    by_cases hnull : o = .null
    · subst hnull
      simp [readBack, readBackEntries, decodeObjectForKey, CFObject.NullFree, CFObject.Everywhere]
    · rw [readBack_singleton hnull, ← readBack_eq_self_iff ho hnull]
      cases hback : readBack o with
      | none => simp [decodeObjectForKey]
      | some o' =>
        rw [Option.map_some, decode_root_iff, Option.some.injEq]
        constructor
        · rintro ⟨rfl, hclass⟩
          exact ⟨rfl, hclass⟩
        · rintro ⟨rfl, hclass⟩
          exact ⟨rfl, hclass⟩

/-- A graph with nested containers and no null survives. -/
theorem unarchives_nested : Unarchives noReals (fun _ => false)
    (some (.array [.boolean true, .dictionary [(ascii "$class", .integer 7), (ascii "a<b",
      .data [1, 2])]])) :=
  (unarchives_iff noReals (fun _ => false) (by
    simp [CFObject.IsArchivable, CFObject.Everywhere, CFObject.EverywhereValues,
      CFObject.EverywhereEntries, CFObject.ArchivableAt, keys, ascii, byte])).mpr (by
    simp [CFObject.NullFree, CFObject.NulFree, CFObject.NulFreeAt, CFObject.Everywhere,
      CFObject.EverywhereValues, CFObject.EverywhereEntries, HasClassKey, keys, ascii, byte])

/-- The graph of the failing archive. -/
private def nullValue : CFObject Unit :=
  .dictionary [(ascii "a", .null), (ascii "b", .integer 1)]

/-- **A null as the value of a key makes the rest of the archive undecodable**: the number under
the other key is lost as well. -/
theorem not_unarchives_nullValue : (CFObject.dictionary (δ := Unit)
      [(ascii "a", .null), (ascii "b", .integer 1)]).IsArchivable ∧
    ¬Unarchives noReals (fun _ => false)
      (some (.dictionary [(ascii "a", .null), (ascii "b", .integer 1)])) := by
  have hgraph : nullValue.IsGraph := by
    simp [nullValue, CFObject.IsGraph, CFObject.Everywhere, CFObject.EverywhereEntries,
      CFObject.GraphAt, CFObject.PlistAt, keys, ascii, byte]
  have hroot : ∀ o ∈ some nullValue, o.IsGraph := by
    rintro o ho
    cases ho
    exact hgraph
  refine ⟨((CFObject.isGraph_iff _).mp hgraph).1, ?_⟩
  rintro ⟨data, hdata, hdecode⟩
  obtain ⟨data', hdata', hdecode'⟩ := unarchive_archived noReals (fun _ => false) hroot
  rw [nullValue] at hdata' hdecode'
  rw [hdata'] at hdata
  cases hdata
  rw [hdecode'] at hdecode
  simp [readBack, readBackEntries, decodeObjectForKey, expected] at hdecode

end Asteros.Foundation
