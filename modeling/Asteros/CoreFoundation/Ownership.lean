import Asteros.Lib.Refcount
import Mathlib.Tactic.SplitIfs

set_option autoImplicit false

/-!
# Retained values

`CFArray.c`, `CFDictionary.c` and `CFSet.c` with the callbacks for Core Foundation objects, which
retain what is stored and release what is not stored any longer. Constant objects are not counted,
and `NULL` is neither retained nor released.

The counts are numbers here, and the vectors behind a container have room for one more. `CFEqual`,
which the lookups of dictionaries and sets go by, is a parameter.

## Main definitions

* `Body`, `Objects` — the objects.
* `cfArraySetValueAtIndex`, `cfDictionarySetValue`, `cfSetSetValue` — storing a value.
* `CanStore` — the slot is a new one, or something else keeps the container and the value.

## Main results

* `stored_of_canStore` — the counts are right after a call.
* `cfSetValue_iff` — exactly when the slot holds the value, and it has not been finalized.
-/

namespace Asteros.CoreFoundation.Ownership

open Refcount

/-- What an object refers to, with `none` for `NULL`: the first `count` entries of a container that
has the callbacks, and of another object what its finalizer releases. -/
inductive Body where
  | array (values : List (Option ℕ))
  | dictionary (entries : List (Option ℕ × Option ℕ))
  | set (values : List (Option ℕ))
  | other (held : List (Option ℕ))
  deriving DecidableEq

/-- The objects. -/
abbrev Objects := Heap ℕ Body

/-- The objects of a vector of pointers. -/
def pointers (values : List (Option ℕ)) : List ℕ := values.flatMap Option.toList

/-- What the finalizer releases, in its order: `arrayFinalize`, `dictFinalize`, `setFinalize`. -/
def Body.refs : Body → List ℕ
  | .array values => pointers values
  | .dictionary entries => entries.flatMap fun e => e.1.toList ++ e.2.toList
  | .set values => pointers values
  | .other held => pointers held

/-- `CFRetain`. -/
def cfRetain (h : Objects) : Option ℕ → Option Objects
  | none => some h
  | some cf => retain h cf

/-- `CFRelease`. -/
def cfRelease (depth : ℕ) (h : Objects) : Option ℕ → Option Objects
  | none => some h
  | some cf => release Body.refs depth h cf

/-! ## Storing -/

namespace Body

/-- `values[i] = value`. -/
def storeAt (i : ℕ) (value : Option ℕ) : Body → Body
  | .array values => .array (values.set i value)
  | .dictionary entries => .dictionary (entries.modify i fun e => (e.1, value))
  | .set values => .set (values.set i value)
  | .other held => .other held

/-- `values[i]`. -/
def valueAt (i : ℕ) : Body → Option (Option ℕ)
  | .array values => values[i]?
  | .dictionary entries => (entries[i]?).map Prod.snd
  | .set values => values[i]?
  | .other _ => none

/-- One more entry. -/
def append (key value : Option ℕ) : Body → Body
  | .dictionary entries => .dictionary (entries ++ [(key, value)])
  | .set values => .set (values ++ [value])
  | body => body

end Body

/-- What the three functions do with an entry that there is: the old value is released, then the new
one is retained and stored. -/
def exchange (depth : ℕ) (h : Objects) (container i : ℕ) (old value : Option ℕ) : Option Objects :=
  (cfRelease depth h old).bind fun h => (cfRetain h value).bind fun h =>
    modify h container (Body.storeAt i value)

/-- `CFArraySetValueAtIndex`: there is no bounds check, and no value at an index that is not below
the count. -/
def cfArraySetValueAtIndex (depth : ℕ) (h : Objects) (theArray idx : ℕ) (value : Option ℕ) :
    Option Objects :=
  match (h.cell theArray).map Cell.body with
  | some (.array values) => values[idx]?.bind fun old => exchange depth h theArray idx old value
  | _ => none

/-- `dictFind`. -/
def dictFind (equal : Option ℕ → Option ℕ → Bool) (entries : List (Option ℕ × Option ℕ))
    (key : Option ℕ) : Option ℕ :=
  entries.findIdx? fun e => equal e.1 key

/-- `CFDictionarySetValue`. -/
def cfDictionarySetValue (equal : Objects → Option ℕ → Option ℕ → Bool) (depth : ℕ) (h : Objects)
    (theDict : ℕ) (key value : Option ℕ) : Option Objects :=
  match (h.cell theDict).map Cell.body with
  | some (.dictionary entries) =>
    match dictFind (equal h) entries key with
    | some i => entries[i]?.bind fun e => exchange depth h theDict i e.2 value
    | none => (cfRetain h key).bind fun h => (cfRetain h value).bind fun h =>
        modify h theDict (Body.append key value)
  | _ => none

/-- `setFind`. -/
def setFind (equal : Option ℕ → Option ℕ → Bool) (values : List (Option ℕ)) (value : Option ℕ) :
    Option ℕ :=
  values.findIdx? fun v => equal v value

/-- `CFSetAddValue`. -/
def cfSetAddValue (equal : Objects → Option ℕ → Option ℕ → Bool) (h : Objects) (theSet : ℕ)
    (value : Option ℕ) : Option Objects :=
  match (h.cell theSet).map Cell.body with
  | some (.set values) =>
    match setFind (equal h) values value with
    | some _ => some h
    | none => (cfRetain h value).bind fun h => modify h theSet (Body.append none value)
  | _ => none

/-- `CFSetSetValue`. -/
def cfSetSetValue (equal : Objects → Option ℕ → Option ℕ → Bool) (depth : ℕ) (h : Objects)
    (theSet : ℕ) (value : Option ℕ) : Option Objects :=
  match (h.cell theSet).map Cell.body with
  | some (.set values) =>
    match setFind (equal h) values value with
    | some i => values[i]?.bind fun old => exchange depth h theSet i old value
    | none => cfSetAddValue equal h theSet value
  | _ => none

/-! ## Slots -/

/-- Where a value is stored: at an index of an array, under a key of a dictionary, or in a set. -/
inductive Slot where
  | index (idx : ℕ)
  | key (key : Option ℕ)
  | member
  deriving DecidableEq

/-- The function that stores. -/
def setValue (equal : Objects → Option ℕ → Option ℕ → Bool) (depth : ℕ) (h : Objects)
    (container : ℕ) (slot : Slot) (value : Option ℕ) : Option Objects :=
  match slot with
  | .index idx => cfArraySetValueAtIndex depth h container idx value
  | .key key => cfDictionarySetValue equal depth h container key value
  | .member => cfSetSetValue equal depth h container value

namespace Body

/-- The number of entries. -/
def count : Body → ℕ
  | .array values => values.length
  | .dictionary entries => entries.length
  | .set values => values.length
  | .other _ => 0

/-- Which entry is replaced. -/
def find (equal : Option ℕ → Option ℕ → Bool) (value : Option ℕ) : Body → Slot → Option ℕ
  | .array values, .index idx => if idx < values.length then some idx else none
  | .dictionary entries, .key key => dictFind equal entries key
  | .set values, .member => setFind equal values value
  | _, _ => none

/-- The slot is one for the container, and the key is alive. -/
def Takes (h : Objects) : Body → Slot → Prop
  | .array _, .index _ => True
  | .dictionary _, .key key => ∀ k, key = some k → h.Alive k
  | .set _, .member => True
  | _, _ => False

end Body

/-- The value at a place of a container. -/
def valueAt (h : Objects) (container i : ℕ) : Option (Option ℕ) :=
  ((h.cell container).map Cell.body).bind fun body => body.valueAt i

/-- The slot is a new one of a dictionary or a set, or there is an entry and something other than
the entry keeps the container and the value. -/
def CanStore (equal : Objects → Option ℕ → Option ℕ → Bool) (h : Objects) (owed : ℕ → ℕ)
    (container : ℕ) (slot : Slot) (value : ℕ) : Prop :=
  ∃ c, h.cell container = some c ∧
    ((c.body.find (equal h) (some value) slot = none ∧ ∀ idx, slot ≠ .index idx) ∨
      ∃ i, c.body.find (equal h) (some value) slot = some i ∧
        ¬Doomed Body.refs (h.put container { c with body := c.body.storeAt i none }) owed container ∧
        ¬Doomed Body.refs (h.put container { c with body := c.body.storeAt i none }) owed value)

section

variable {equal : Objects → Option ℕ → Option ℕ → Bool} {h h' : Objects} {owed : ℕ → ℕ}
  {body : Body} {c : Cell Body} {slot : Slot} {d v i depth n m : ℕ} {old : Option ℕ}

/-! ## The entries of a container -/

/-- What a list comes to with another member at a place is what that comes to and the others. -/
lemma perm_flatMap_set {α : Type} {l : List α} (hi : i < l.length) (f : α → List ℕ) (x : α) :
    ((l.set i x).flatMap f).Perm (f x ++ (l.eraseIdx i).flatMap f) :=
  (List.set_perm_cons_eraseIdx hi x).flatMap_right f

/-- The pointers of a vector are the one at a place and the others. -/
lemma perm_pointers {values : List (Option ℕ)} (hi : i < values.length) (x : Option ℕ) :
    (pointers (values.set i x)).Perm (x.toList ++ pointers (values.set i none)) := by
  refine (perm_flatMap_set hi Option.toList x).trans (List.Perm.append_left _ ?_)
  exact (perm_flatMap_set hi Option.toList none).symm

namespace Body

/-- The references of a container with another value at a place are that one's and those of the
others. -/
lemma refs_storeAt (hold : body.valueAt i = some old) (x : Option ℕ) :
    (body.storeAt i x).refs.Perm (x.toList ++ (body.storeAt i none).refs) := by
  cases body with
  | array values => exact perm_pointers (List.getElem?_eq_some_iff.mp hold).1 x
  | set values => exact perm_pointers (List.getElem?_eq_some_iff.mp hold).1 x
  | other held => cases hold
  | dictionary entries =>
    obtain ⟨e, he, -⟩ := Option.map_eq_some_iff.mp hold
    obtain ⟨hi, -⟩ := List.getElem?_eq_some_iff.mp he
    have hset : ∀ x, entries.modify i (fun e => (e.1, x)) = entries.set i (e.1, x) := by
      intro x
      rw [List.modify_eq_set_getElem?, he]
      rfl
    simp only [storeAt, refs, hset]
    refine (perm_flatMap_set hi _ (e.1, x)).trans ?_
    have hnone := perm_flatMap_set hi (fun e => e.1.toList ++ e.2.toList) (e.1, none)
    simp only [Option.toList_none, List.append_nil] at hnone
    rw [List.append_assoc]
    exact List.perm_append_comm_assoc _ _ _ |>.trans (hnone.symm.append_left _)

/-- Storing what is there changes nothing. -/
lemma storeAt_self (hold : body.valueAt i = some old) : body.storeAt i old = body := by
  cases body with
  | array values =>
    obtain ⟨hi, rfl⟩ := List.getElem?_eq_some_iff.mp hold
    rw [storeAt, List.set_getElem_self]
  | set values =>
    obtain ⟨hi, rfl⟩ := List.getElem?_eq_some_iff.mp hold
    rw [storeAt, List.set_getElem_self]
  | other held => rfl
  | dictionary entries =>
    obtain ⟨e, he, rfl⟩ := Option.map_eq_some_iff.mp hold
    obtain ⟨hi, rfl⟩ := List.getElem?_eq_some_iff.mp he
    rw [storeAt, List.modify_eq_set_getElem?, he]
    simp

/-- The references of a container are the one at a place and the others. -/
lemma refs_clear (hold : body.valueAt i = some old) :
    body.refs.Perm (old.toList ++ (body.storeAt i none).refs) := by
  have hperm := refs_storeAt hold old
  rwa [storeAt_self hold] at hperm

/-- The value that was stored. -/
lemma valueAt_storeAt (hold : body.valueAt i = some old) (x : Option ℕ) :
    (body.storeAt i x).valueAt i = some x := by
  cases body with
  | array values => exact List.getElem?_set_self (List.getElem?_eq_some_iff.mp hold).1
  | set values => exact List.getElem?_set_self (List.getElem?_eq_some_iff.mp hold).1
  | other held => cases hold
  | dictionary entries =>
    obtain ⟨e, he, -⟩ := Option.map_eq_some_iff.mp hold
    simp [storeAt, valueAt, he]

/-- An entry that is found is there. -/
lemma valueAt_of_find {eq : Option ℕ → Option ℕ → Bool} {x : Option ℕ}
    (hfind : body.find eq x slot = some i) : ∃ old, body.valueAt i = some old := by
  have hidx : ∀ {α : Type} {l : List α} {p : α → Bool}, l.findIdx? p = some i → ∃ a, l[i]? = some a := by
    intro α l p hp
    obtain ⟨hi, -⟩ := List.findIdx?_eq_some_iff_getElem.mp hp
    exact ⟨_, List.getElem?_eq_getElem hi⟩
  cases body with
  | array values =>
    cases slot with
    | index idx =>
      simp only [find] at hfind
      split_ifs at hfind with hlt
      obtain rfl := Option.some_inj.mp hfind
      exact ⟨_, List.getElem?_eq_getElem hlt⟩
    | _ => cases hfind
  | dictionary entries =>
    cases slot with
    | key key =>
      obtain ⟨e, he⟩ := hidx hfind
      exact ⟨e.2, by rw [valueAt, he]; rfl⟩
    | _ => cases hfind
  | set values =>
    cases slot with
    | member => exact hidx hfind
    | _ => cases hfind
  | other held => cases slot <;> cases hfind

end Body

/-! ## Replacing an entry -/

/-- What the three functions do where there is an entry. -/
lemma setValue_of_find (hd : h.cell d = some c)
    (hfind : c.body.find (equal h) (some v) slot = some i) (hold : c.body.valueAt i = some old) :
    setValue equal depth h d slot (some v) = exchange depth h d i old (some v) := by
  have hcast : (h.cell d).map Cell.body = some c.body := by rw [hd, Option.map_some]
  revert hcast hfind hold
  generalize c.body = body
  intro hfind hold hcast
  cases body with
  | array values =>
    cases slot with
    | index idx =>
      simp only [Body.find] at hfind
      split_ifs at hfind with hlt
      obtain rfl := Option.some_inj.mp hfind
      change values[idx]? = some old at hold
      simp only [setValue, cfArraySetValueAtIndex, hcast, hold, Option.bind_some]
    | _ => cases hfind
  | dictionary entries =>
    cases slot with
    | key key =>
      change dictFind (equal h) entries key = some i at hfind
      obtain ⟨e, he, rfl⟩ := Option.map_eq_some_iff.mp hold
      simp only [setValue, cfDictionarySetValue, hcast, hfind, he, Option.bind_some]
    | _ => cases hfind
  | set values =>
    cases slot with
    | member =>
      change setFind (equal h) values (some v) = some i at hfind
      change values[i]? = some old at hold
      simp only [setValue, cfSetSetValue, hcast, hfind, hold, Option.bind_some]
    | _ => cases hfind
  | other held => cases slot <;> cases hfind

/-- What a call leaves behind that has stored the value at a place. -/
structure Stored (h' : Objects) (owed : ℕ → ℕ) (d i v : ℕ) : Prop where
  /-- The counts are right. -/
  balanced : Balanced Body.refs h' owed []
  /-- The slot holds the value. -/
  holds : valueAt h' d i = some (some v)
  /-- The value has not been finalized. -/
  value : h'.Alive v

/-- **Replacing an entry**, when something else keeps the container and the value. -/
lemma stored_of_find (hbal : Balanced Body.refs h owed []) (hd : h.cell d = some c)
    (halive : h.Alive d) (hfind : c.body.find (equal h) (some v) slot = some i) (hv : h.Alive v)
    (hkeep : ¬Doomed Body.refs (h.put d { c with body := c.body.storeAt i none }) owed d)
    (hkeep' : ¬Doomed Body.refs (h.put d { c with body := c.body.storeAt i none }) owed v) :
    ∃ depth h', setValue equal depth h d slot (some v) = some h' ∧ Stored h' owed d i v := by
  obtain ⟨old, hold⟩ := Body.valueAt_of_find hfind
  have hholds : ∀ h' : Objects, h'.object d = some (c.body.storeAt i (some v), c.immortal) →
      valueAt h' d i = some (some v) := by
    intro h' hobj
    rw [valueAt, Heap.body_of_object hobj, Option.bind_some, Body.valueAt_storeAt hold]
  cases old with
  | none =>
    have hslots : (c.body.storeAt i (some v)).refs.Perm (v :: [] ++ c.body.refs) :=
      (Body.refs_storeAt hold (some v)).trans ((Body.refs_clear hold).symm.cons v)
    obtain ⟨h', hstore, hbal', -, hlive, hbody, -⟩ :=
      store_adopt (f := Body.storeAt i (some v)) hbal hd halive hv hslots fun _ => rfl
    exact ⟨0, h', (setValue_of_find hd hfind hold).trans hstore, hbal', hholds h' hbody,
      (hlive v).mpr hv⟩
  | some old =>
    obtain ⟨depth, h', hrep, hbody, hlive, hbal', -⟩ := replace_spec (f := Body.storeAt i (some v))
      hbal hd halive (Body.refs_clear hold) hv hkeep hkeep' (Body.refs_storeAt hold (some v))
    exact ⟨depth, h', (setValue_of_find hd hfind hold).trans hrep, hbal', hholds h' hbody, hlive⟩

/-- Where a call returns that replaces an entry, something else has kept the container and the
value. -/
lemma not_doomed_of_find (hbal : Balanced Body.refs h owed []) (hd : h.cell d = some c)
    (halive : h.Alive d) (hfind : c.body.find (equal h) (some v) slot = some i) (hv : h.Alive v)
    (hcall : setValue equal depth h d slot (some v) = some h') :
    ¬Doomed Body.refs (h.put d { c with body := c.body.storeAt i none }) owed d ∧
      ¬Doomed Body.refs (h.put d { c with body := c.body.storeAt i none }) owed v := by
  obtain ⟨old, hold⟩ := Body.valueAt_of_find hfind
  rw [setValue_of_find hd hfind hold] at hcall
  cases old with
  | none =>
    -- Nothing is released, so whoever is alive is kept.
    have hbal' : Balanced Body.refs (h.put d { c with body := c.body.storeAt i none }) owed [] :=
      balanced_write hbal hd halive fun x => by rw [(Body.refs_clear hold).count_eq x]; rfl
    have hlive := (sameBut_put hd (c.body.storeAt i none)).alive
    exact ⟨not_doomed_of_alive hbal' ((hlive d).mpr halive),
      not_doomed_of_alive hbal' ((hlive v).mpr hv)⟩
  | some old => exact not_doomed_of_replace hbal hd halive (Body.refs_clear hold) hv hcall

/-! ## New entries -/

/-- A pointer is retained. -/
lemma cfRetain_spec (hbal : Balanced Body.refs h owed []) {cf : Option ℕ}
    (hcf : ∀ k, cf = some k → h.Alive k) :
    ∃ g, cfRetain h cf = some g ∧ Balanced Body.refs g (fun x => owed x + cf.toList.count x) [] ∧
      SameObjects h g := by
  cases cf with
  | none => exact ⟨h, rfl, hbal, rfl, fun _ => rfl, fun _ => Iff.rfl⟩
  | some k =>
    obtain ⟨g, hret, hbalg, hsame⟩ := balanced_retain hbal (hcf k rfl)
    refine ⟨g, hret, ?_, hsame⟩
    have howed : oneMore owed k = fun x => owed x + (some k).toList.count x := by
      funext x
      simp only [oneMore, Option.toList_some, List.count_cons, List.count_nil, beq_iff_eq,
        eq_comm (a := x), Nat.zero_add]
    rwa [← howed]

/-- **A new entry**, of a dictionary or a set. -/
lemma stored_of_new (hbal : Balanced Body.refs h owed []) (hd : h.cell d = some c)
    (halive : h.Alive d) (htakes : c.body.Takes h slot)
    (hfind : c.body.find (equal h) (some v) slot = none) (hslot : ∀ idx, slot ≠ .index idx)
    (hv : h.Alive v) :
    ∃ depth h', setValue equal depth h d slot (some v) = some h' ∧
      Stored h' owed d c.body.count v := by
  have hcast : (h.cell d).map Cell.body = some c.body := by rw [hd, Option.map_some]
  cases slot with
  | index idx => exact absurd rfl (hslot idx)
  | key key =>
    cases hbody : c.body with
    | dictionary entries =>
      rw [hbody] at htakes hfind hcast
      obtain ⟨g, hret, hbalg, hsame⟩ := cfRetain_spec hbal htakes
      obtain ⟨e, he, hebody, -⟩ := Heap.cell_of_object (hsame.object d) hd
      have hslots : (Body.append key (some v) e.body).refs.Perm
          (v :: key.toList ++ e.body.refs) := by
        simp only [hebody, hbody, Body.append, Body.refs, List.flatMap_append]
        refine List.perm_append_comm.trans ?_
        simp
      obtain ⟨h', hstore, hbal', -, hlive, hbody', -⟩ := store_adopt hbalg he
        ((hsame.alive d).mpr halive) ((hsame.alive v).mpr hv) hslots fun _ => rfl
      refine ⟨0, h', ?_, hbal', ?_, (hlive v).mpr ((hsame.alive v).mpr hv)⟩
      · change dictFind (equal h) entries key = none at hfind
        simp only [setValue, cfDictionarySetValue, hcast, hfind, hret, Option.bind_some]
        exact hstore
      · rw [valueAt, Heap.body_of_object hbody', Option.bind_some, hebody, hbody]
        simp [Body.append, Body.valueAt, Body.count]
    | _ => rw [hbody] at htakes; exact htakes.elim
  | member =>
    cases hbody : c.body with
    | set values =>
      rw [hbody] at hfind hcast
      have hslots : (Body.append none (some v) c.body).refs.Perm (v :: [] ++ c.body.refs) := by
        simp only [hbody, Body.append, Body.refs, pointers, List.flatMap_append]
        exact List.perm_append_comm
      obtain ⟨h', hstore, hbal', -, hlive, hbody', -⟩ := store_adopt hbal hd halive hv hslots
        fun _ => rfl
      refine ⟨0, h', ?_, hbal', ?_, (hlive v).mpr hv⟩
      · change setFind (equal h) values (some v) = none at hfind
        simp only [setValue, cfSetSetValue, cfSetAddValue, hcast, hfind]
        exact hstore
      · rw [valueAt, Heap.body_of_object hbody', Option.bind_some, hbody]
        simp [Body.append, Body.valueAt, Body.count]
    | _ => rw [hbody] at htakes; exact htakes.elim

/-! ## Every call -/

/-- Where the value is stored: the entry that is replaced, or behind the last one. -/
def Body.place (equal : Option ℕ → Option ℕ → Bool) (v : ℕ) (body : Body) (slot : Slot) : ℕ :=
  (body.find equal (some v) slot).getD body.count

/-- A call stores the value if the slot is a new one, or if something else keeps the container and
the value. -/
theorem stored_of_canStore (hbal : Balanced Body.refs h owed []) (hd : h.cell d = some c)
    (halive : h.Alive d) (htakes : c.body.Takes h slot) (hv : h.Alive v)
    (hcan : CanStore equal h owed d slot v) :
    ∃ depth h', setValue equal depth h d slot (some v) = some h' ∧
      Stored h' owed d (c.body.place (equal h) v slot) v := by
  obtain ⟨c', hc', ⟨hnone, hslot⟩ | ⟨i, hfind, hkeep, hkeep'⟩⟩ := hcan
  · obtain rfl := Option.some_inj.mp (hd.symm.trans hc')
    rw [Body.place, hnone]
    exact stored_of_new hbal hd halive htakes hnone hslot hv
  · obtain rfl := Option.some_inj.mp (hd.symm.trans hc')
    rw [Body.place, hfind]
    exact stored_of_find hbal hd halive hfind hv hkeep hkeep'

/-- **What a call has found** that returns: the slot is new, or something else keeps the container
and the value. -/
theorem canStore_of_setValue (hbal : Balanced Body.refs h owed []) (hd : h.cell d = some c)
    (halive : h.Alive d) (htakes : c.body.Takes h slot) (hv : h.Alive v)
    (hcall : setValue equal depth h d slot (some v) = some h') :
    CanStore equal h owed d slot v := by
  refine ⟨c, hd, ?_⟩
  cases hfind : c.body.find (equal h) (some v) slot with
  | some i => exact .inr ⟨i, rfl, not_doomed_of_find hbal hd halive hfind hv hcall⟩
  | none =>
    left
    refine ⟨rfl, ?_⟩
    rintro idx rfl
    have hcast : (h.cell d).map Cell.body = some c.body := by rw [hd, Option.map_some]
    cases hbody : c.body with
    | array values =>
      rw [hbody] at hfind hcast
      simp only [Body.find] at hfind
      split_ifs at hfind with hlt
      have hnone : values[idx]? = none := List.getElem?_eq_none_iff.mpr (Nat.not_lt.mp hlt)
      simp [setValue, cfArraySetValueAtIndex, hcast, hnone] at hcall
    | _ => rw [hbody] at htakes; exact htakes.elim

/-- **When the new value is not finalized.** For a live container and a live value, the call returns
with the slot holding the value and the value not finalized exactly when the slot is a new one of a
dictionary or a set, or when there is an entry and something other than that entry keeps the
container and the value.

**Proof sketch.** The release of the old value finalizes exactly what only the entry kept. If that
is the container or the value, then the call goes on with an object that is no longer there. -/
theorem cfSetValue_iff (hbal : Balanced Body.refs h owed []) (hd : h.cell d = some c)
    (halive : h.Alive d) (htakes : c.body.Takes h slot) (hv : h.Alive v) :
    (∃ depth h', setValue equal depth h d slot (some v) = some h' ∧
      valueAt h' d (c.body.place (equal h) v slot) = some (some v) ∧ h'.Alive v) ↔
      CanStore equal h owed d slot v := by
  constructor
  · rintro ⟨depth, h', hcall, -⟩
    exact canStore_of_setValue hbal hd halive htakes hv hcall
  · intro hcan
    obtain ⟨depth, h', hcall, hstored⟩ := stored_of_canStore hbal hd halive htakes hv hcan
    exact ⟨depth, h', hcall, hstored.holds, hstored.value⟩

/-! ## An array with one value -/

/-- An array with a value that it keeps alone, and a value that is kept from outside. -/
def sample : List (ℕ × Cell Body) :=
  [(1, ⟨1, false, .array [some 2]⟩), (2, ⟨1, false, .other []⟩), (3, ⟨1, false, .other []⟩)]

/-- Its counts are right. -/
lemma balanced_sample :
    Balanced Body.refs (Heap.ofList sample) (fun x => [1, 3].count x) [] :=
  balanced_ofList (by decide +kernel) (by decide +kernel) (by decide +kernel)

/-- The array. -/
lemma sample_cell : (Heap.ofList sample).cell 1 = some ⟨1, false, .array [some 2]⟩ := rfl

/-- The value that is kept from outside replaces the other. -/
theorem cfSetValue_iff_sample :
    (∃ depth h', setValue (fun _ a b => a == b) depth (Heap.ofList sample) 1 (.index 0) (some 3) =
      some h' ∧ valueAt h' 1 0 = some (some 3) ∧ h'.Alive 3) ↔
      CanStore (fun _ a b => a == b) (Heap.ofList sample) (fun x => [1, 3].count x) 1 (.index 0)
        3 := by
  have htakes : (Body.array [some 2]).Takes (Heap.ofList sample) (.index 0) := trivial
  have halive : (Heap.ofList sample).Alive 1 := by decide +kernel
  have hv : (Heap.ofList sample).Alive 3 := by decide +kernel
  exact cfSetValue_iff balanced_sample sample_cell halive htakes hv

/-- **Setting an index to the value it has** is not safe: the array keeps the value alone, so it is
finalized before it is retained. -/
theorem not_stored_cfSameValue :
    ¬ ∀ (equal : Objects → Option ℕ → Option ℕ → Bool) (h : Objects) (owed : ℕ → ℕ) (d : ℕ)
      (c : Cell Body) (slot : Slot) (v : ℕ), Balanced Body.refs h owed [] → h.cell d = some c →
      h.Alive d → c.body.Takes h slot → h.Alive v →
      ∃ depth h', setValue equal depth h d slot (some v) = some h' ∧
        valueAt h' d (c.body.place (equal h) v slot) = some (some v) ∧ h'.Alive v := by
  intro hall
  have htakes : (Body.array [some 2]).Takes (Heap.ofList sample) (.index 0) := trivial
  have halive : (Heap.ofList sample).Alive 1 := by decide +kernel
  have hv : (Heap.ofList sample).Alive 2 := by decide +kernel
  obtain ⟨depth, h', hcall, -⟩ := hall (fun _ a b => a == b) _ _ 1 _ (.index 0) 2 balanced_sample
    sample_cell halive htakes hv
  obtain ⟨c, hc, ⟨-, hslot⟩ | ⟨i, hfind, -, hkeep⟩⟩ :=
    canStore_of_setValue balanced_sample sample_cell halive htakes hv hcall
  · exact hslot 0 rfl
  · obtain rfl := Option.some_inj.mp ((sample_cell).symm.trans hc)
    obtain rfl := Option.some_inj.mp (show some 0 = some i from hfind)
    -- Without the entry nothing refers to the value.
    refine hkeep (.intro 2 (by decide +kernel) (by decide +kernel) fun y hy => ?_)
    exact absurd (Heap.inDegree_pos hy) (by decide +kernel)

end

end Asteros.CoreFoundation.Ownership
