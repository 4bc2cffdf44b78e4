import Asteros.Lib.Transition
import Mathlib.Data.List.Pairwise
import Mathlib.Data.List.TakeWhile

set_option autoImplicit false

/-!
# The keychain

`SecItem.c`: generic passwords in a linked list. One function walks the list for queries, where an
attribute that is not given does not narrow the search, and for the check of uniqueness, where it
should be a value of its own: an item without an account is taken for a duplicate of any with the same
service.

## Main definitions

* `Item`, `Attributes` — what is stored, and what is asked for.
* `secItemAdd`, `secItemCopyMatching`, `secItemUpdate`, `secItemDelete` — the four calls.
* `Keyed`, `CallLaw` — the store is a set of records with keys.
* `Separated` — an item that is added has a key apart from those stored.

## Main results

* `status_add` — which items are taken for duplicates.
* `keychain` — the store is such a set if the keys are apart.
* `add_takenBack` — what was added is found and taken back.
-/

namespace Asteros.Security

open Transition

variable {σ δ : Type} [DecidableEq σ]

/-! ## The implementation -/

/-- The status codes of the calls. -/
inductive OSStatus where
  | success
  | param
  | allocate
  | duplicateItem
  | itemNotFound
  deriving DecidableEq

/-- `SecKeychainItem`: strings and data by their contents. -/
structure Item (σ δ : Type) where
  service : Option σ
  account : Option σ
  label : Option σ
  data : δ
  deriving DecidableEq

/-- The values of `kSecClass`. -/
inductive SecClass where
  | genericPassword
  | other
  deriving DecidableEq

/-- The values of `kSecMatchLimit`. -/
inductive MatchLimit where
  | all
  | other
  deriving DecidableEq

/-- A dictionary that is given to a call: what is looked up in it. -/
structure Attributes (σ δ : Type) where
  cls : Option SecClass
  service : Option σ
  account : Option σ
  label : Option σ
  valueData : Option δ
  returnData : Bool
  returnAttributes : Bool
  matchLimit : Option MatchLimit

/-- A piece of a result: data, or a dictionary of attributes. -/
inductive Entry (σ δ : Type) where
  | data (d : δ)
  | attributes (service account label : Option σ) (data : Option δ)
  deriving DecidableEq

/-- What `*result` is set to. -/
inductive Result (σ δ : Type) where
  | one (entry : Entry σ δ)
  | all (entries : List (Entry σ δ))
  deriving DecidableEq

/-- What a call returns, what it sets `*result` to, and the items it leaves. -/
structure Outcome (σ δ : Type) where
  status : OSStatus
  result : Option (Result σ δ)
  items : List (Item σ δ)
  deriving DecidableEq

/-- `attrsEqual`. -/
def attrsEqual : Option σ → Option σ → Bool
  | none, none => true
  | some a, some b => a = b
  | _, _ => false

/-- The test in `findMatchLocked` and in `SecItemDelete`. -/
def matchesItem (service account label : Option σ) (it : Item σ δ) : Bool :=
  (service.isNone || attrsEqual it.service service) &&
    (account.isNone || attrsEqual it.account account) &&
    (label.isNone || attrsEqual it.label label)

/-- `findMatchLocked`: the items from the first match on. -/
def findMatchLocked (service account label : Option σ) (items : List (Item σ δ)) :
    List (Item σ δ) :=
  items.dropWhile fun it => !matchesItem service account label it

/-- The items from a match on are no more than before. -/
lemma length_findMatchLocked_le (service account label : Option σ) (items : List (Item σ δ)) :
    (findMatchLocked service account label items).length ≤ items.length :=
  (List.dropWhile_suffix _).length_le

/-- `classFromDict` and the tests before and after it: the dictionary, if it is one for generic
passwords. -/
def checkedClass (dict : Option (Attributes σ δ)) : Option (Attributes σ δ) :=
  dict.filter fun a => a.cls = some .genericPassword

/-- `buildAttributesDict`, with the data if it is wanted. -/
def buildAttributesDict (it : Item σ δ) (withData : Bool) : Entry σ δ :=
  .attributes it.service it.account it.label (if withData then some it.data else none)

/-- `SecItemAdd`, where `memory` says whether `calloc` succeeds. -/
def secItemAdd (items : List (Item σ δ)) (attributes : Option (Attributes σ δ))
    (hasResult memory : Bool) : Outcome σ δ :=
  match checkedClass attributes with
  | none => ⟨.param, none, items⟩
  | some a =>
    match a.valueData with
    | none => ⟨.param, none, items⟩
    | some value =>
      if findMatchLocked a.service a.account none items ≠ [] then ⟨.duplicateItem, none, items⟩
      else if !memory then ⟨.allocate, none, items⟩
      else
        ⟨.success, if hasResult && a.returnData then some (.one (.data value)) else none,
          ⟨a.service, a.account, a.label, value⟩ :: items⟩

/-- What `SecItemCopyMatching` makes of a single item. -/
def entryOne (a : Attributes σ δ) (it : Item σ δ) : Option (Entry σ δ) :=
  if a.returnData && !a.returnAttributes then some (.data it.data)
  else if a.returnAttributes && !a.returnData then some (buildAttributesDict it false)
  else if a.returnAttributes && a.returnData then some (buildAttributesDict it true)
  else none

/-- What it makes of an item of several. -/
def entryAll (a : Attributes σ δ) (it : Item σ δ) : Entry σ δ :=
  if a.returnData && !a.returnAttributes then .data it.data
  else buildAttributesDict it a.returnData

/-- The loop over all matches of `SecItemCopyMatching`. -/
def matchesFrom (a : Attributes σ δ) (items : List (Item σ δ)) : List (Entry σ δ) :=
  match hfound : findMatchLocked a.service a.account a.label items with
  | [] => []
  | it :: rest =>
    have : rest.length < items.length := by
      have hle := length_findMatchLocked_le a.service a.account a.label items
      rw [hfound] at hle
      exact hle
    entryAll a it :: matchesFrom a rest
termination_by items.length

/-- `SecItemCopyMatching`. -/
def secItemCopyMatching (items : List (Item σ δ)) (query : Option (Attributes σ δ))
    (hasResult : Bool) : Outcome σ δ :=
  match checkedClass query with
  | none => ⟨.param, none, items⟩
  | some a =>
    if a.matchLimit = some .all then
      match matchesFrom a items with
      | [] => ⟨.itemNotFound, none, items⟩
      | entries => ⟨.success, if hasResult then some (.all entries) else none, items⟩
    else
      match findMatchLocked a.service a.account a.label items with
      | [] => ⟨.itemNotFound, none, items⟩
      | it :: _ =>
        ⟨.success, if hasResult then (entryOne a it).map Result.one else none, items⟩

/-- What `SecItemUpdate` does with a match. -/
def updateItem (attributes : Attributes σ δ) (it : Item σ δ) : Item σ δ :=
  { it with
    data := attributes.valueData.getD it.data
    label := attributes.label.or it.label }

/-- The loop of `SecItemUpdate`: whether there was a match, and the items after it. -/
def updateFrom (a attributes : Attributes σ δ) (items : List (Item σ δ)) :
    Bool × List (Item σ δ) :=
  match hfound : findMatchLocked a.service a.account a.label items with
  | [] => (false, items)
  | it :: rest =>
    have : rest.length < items.length := by
      have hle := length_findMatchLocked_le a.service a.account a.label items
      rw [hfound] at hle
      exact hle
    (true, (items.takeWhile fun it => !matchesItem a.service a.account a.label it) ++
      updateItem attributes it :: (updateFrom a attributes rest).2)
termination_by items.length

/-- `SecItemUpdate`. -/
def secItemUpdate (items : List (Item σ δ)) (query attributesToUpdate : Option (Attributes σ δ)) :
    Outcome σ δ :=
  match attributesToUpdate with
  | none => ⟨.param, none, items⟩
  | some attributes =>
    match checkedClass query with
    | none => ⟨.param, none, items⟩
    | some a =>
      match updateFrom a attributes items with
      | (false, items') => ⟨.itemNotFound, none, items'⟩
      | (true, items') => ⟨.success, none, items'⟩

/-- The loop of `SecItemDelete`: whether there was a match, and the items after it. -/
def deleteFrom (a : Attributes σ δ) : List (Item σ δ) → Bool × List (Item σ δ)
  | [] => (false, [])
  | it :: rest =>
    if matchesItem a.service a.account a.label it then (true, (deleteFrom a rest).2)
    else ((deleteFrom a rest).1, it :: (deleteFrom a rest).2)

/-- `SecItemDelete`. -/
def secItemDelete (items : List (Item σ δ)) (query : Option (Attributes σ δ)) : Outcome σ δ :=
  match checkedClass query with
  | none => ⟨.param, none, items⟩
  | some a =>
    match deleteFrom a items with
    | (false, items') => ⟨.itemNotFound, none, items'⟩
    | (true, items') => ⟨.success, none, items'⟩

/-- The calls of a client. -/
inductive Call (σ δ : Type) where
  | add (attributes : Option (Attributes σ δ)) (hasResult memory : Bool)
  | copyMatching (query : Option (Attributes σ δ)) (hasResult : Bool)
  | update (query attributesToUpdate : Option (Attributes σ δ))
  | delete (query : Option (Attributes σ δ))

/-- What a call does. -/
def perform (items : List (Item σ δ)) : Call σ δ → Outcome σ δ
  | .add attributes hasResult memory => secItemAdd items attributes hasResult memory
  | .copyMatching query hasResult => secItemCopyMatching items query hasResult
  | .update query attributesToUpdate => secItemUpdate items query attributesToUpdate
  | .delete query => secItemDelete items query

/-- The items after a call. -/
def callStep (items : List (Item σ δ)) (call : Call σ δ) : Option (List (Item σ δ)) :=
  some (perform items call).items

/-! ## What it should be -/

/-- The key of an item. -/
def Item.pair (it : Item σ δ) : Option σ × Option σ := (it.service, it.account)

/-- The key that a dictionary gives. -/
def Attributes.pair (a : Attributes σ δ) : Option σ × Option σ := (a.service, a.account)

/-- An item has all the attributes that a query gives. -/
def Satisfies (a : Attributes σ δ) (it : Item σ δ) : Prop :=
  (∀ v ∈ a.service, it.service = some v) ∧ (∀ v ∈ a.account, it.account = some v) ∧
    ∀ v ∈ a.label, it.label = some v

/-- The test of the implementation decides it. -/
lemma matchesItem_iff (a : Attributes σ δ) (it : Item σ δ) :
    matchesItem a.service a.account a.label it = true ↔ Satisfies a it := by
  have hattr : ∀ v w : Option σ, (v.isNone || attrsEqual w v) = true ↔ ∀ x ∈ v, w = some x := by
    intro v w
    cases v with
    | none => simp
    | some x =>
      cases w with
      | none => simp [attrsEqual]
      | some y => simp [attrsEqual]
  unfold matchesItem Satisfies
  rw [Bool.and_eq_true, Bool.and_eq_true, hattr, hattr, hattr, and_assoc]

instance (a : Attributes σ δ) (it : Item σ δ) : Decidable (Satisfies a it) :=
  decidable_of_iff _ (matchesItem_iff a it)

/-- The items that a query asks for. -/
def selected (a : Attributes σ δ) (items : List (Item σ δ)) : List (Item σ δ) :=
  items.filter fun it => Satisfies a it

/-- The status of a call that needs an item. -/
def statusOf (found : List (Item σ δ)) : OSStatus :=
  if found.isEmpty then .itemNotFound else .success

/-- The query for the data of an item that gives all its attributes. -/
def queryOf (it : Item σ δ) : Attributes σ δ where
  cls := some .genericPassword
  service := it.service
  account := it.account
  label := it.label
  valueData := none
  returnData := true
  returnAttributes := false
  matchLimit := none

/-- **The store is a set of records with keys**: no key is there twice, and a query that gives all the
attributes of an item finds its data. -/
structure Keyed (items : List (Item σ δ)) : Prop where
  distinct : items.Pairwise fun it it' => it.pair ≠ it'.pair
  found : ∀ it ∈ items, secItemCopyMatching items (some (queryOf it)) true =
    ⟨.success, some (.one (.data it.data)), items⟩

/-- **A call does what it should**: an error changes nothing, an item is a duplicate if its key is
there, and the other calls are for the items that their query asks for. -/
structure CallLaw (items : List (Item σ δ)) (call : Call σ δ) : Prop where
  unchanged : (perform items call).status ≠ .success → (perform items call).items = items
  duplicate : ∀ a value hasResult memory, call = .add (some a) hasResult memory →
    a.cls = some .genericPassword → a.valueData = some value →
      ((perform items call).status = .duplicateItem ↔ ∃ it ∈ items, it.pair = a.pair)
  added : ∀ a value hasResult, call = .add (some a) hasResult true →
    a.cls = some .genericPassword → a.valueData = some value →
      (perform items call).status ≠ .duplicateItem → (perform items call).status = .success ∧
        (perform items call).items = ⟨a.service, a.account, a.label, value⟩ :: items
  copied : ∀ a, call = .copyMatching (some a) true → a.cls = some .genericPassword →
    a.matchLimit = some .all → perform items call = ⟨statusOf (selected a items),
      if (selected a items).isEmpty then none else some (.all ((selected a items).map (entryAll a))),
      items⟩
  updated : ∀ a u, call = .update (some a) (some u) → a.cls = some .genericPassword →
    perform items call = ⟨statusOf (selected a items), none,
      items.map fun it => if Satisfies a it then updateItem u it else it⟩
  deleted : ∀ a, call = .delete (some a) → a.cls = some .genericPassword →
    perform items call = ⟨statusOf (selected a items), none,
      items.filter fun it => ¬Satisfies a it⟩

/-- A key has all the components of another. -/
def Extends (p q : Option σ × Option σ) : Prop :=
  (∀ v ∈ p.1, q.1 = some v) ∧ ∀ v ∈ p.2, q.2 = some v

/-- **An item that is added has a key apart from those stored**: none has all its components, and
it has all of none, but for an equal key. -/
def Separated (items : List (Item σ δ)) : Call σ δ → Prop
  | .add (some a) _ _ => a.cls = some .genericPassword → a.valueData ≠ none →
      ∀ it ∈ items, Extends a.pair it.pair ∨ Extends it.pair a.pair → it.pair = a.pair
  | _ => True

/-! ## The loops -/

/-- What is found begins with an item that is asked for. -/
lemma findMatchLocked_eq_cons {a : Attributes σ δ} {items rest : List (Item σ δ)} {it : Item σ δ}
    (h : findMatchLocked a.service a.account a.label items = it :: rest) :
    Satisfies a it ∧
      items = (items.takeWhile fun it => !matchesItem a.service a.account a.label it) ++
        it :: rest := by
  have hsplit := List.takeWhile_append_dropWhile
    (p := fun it => !matchesItem a.service a.account a.label it) (l := items)
  unfold findMatchLocked at h
  refine ⟨?_, by rw [← h]; exact hsplit.symm⟩
  have hhead := List.head?_dropWhile_not (fun it => !matchesItem a.service a.account a.label it) items
  rw [h] at hhead
  exact (matchesItem_iff a it).mp (by simpa using hhead)

/-- What is before it is not asked for. -/
lemma not_satisfies_of_mem_takeWhile {a : Attributes σ δ} {items : List (Item σ δ)}
    {it : Item σ δ}
    (h : it ∈ items.takeWhile fun it => !matchesItem a.service a.account a.label it) :
    ¬Satisfies a it := by
  have hnot := List.mem_takeWhile_imp h
  rw [← matchesItem_iff]
  simpa using hnot

/-- Nothing is found if nothing is asked for. -/
lemma findMatchLocked_eq_nil_iff (a : Attributes σ δ) (items : List (Item σ δ)) :
    findMatchLocked a.service a.account a.label items = [] ↔ ∀ it ∈ items, ¬Satisfies a it := by
  unfold findMatchLocked
  rw [List.dropWhile_eq_nil_iff]
  refine forall₂_congr fun it _ => ?_
  rw [← matchesItem_iff]
  simp

/-- The selected items from the first on. -/
lemma selected_eq {a : Attributes σ δ} {items rest : List (Item σ δ)} {it : Item σ δ}
    (h : findMatchLocked a.service a.account a.label items = it :: rest) :
    selected a items = it :: selected a rest := by
  obtain ⟨hsat, hsplit⟩ := findMatchLocked_eq_cons h
  have hbefore : selected a
      (items.takeWhile fun it => !matchesItem a.service a.account a.label it) = [] := by
    refine List.filter_eq_nil_iff.mpr fun x hx => ?_
    rw [decide_eq_true_eq]
    exact not_satisfies_of_mem_takeWhile hx
  unfold selected at hbefore ⊢
  rw [hsplit, List.filter_append, hbefore, List.nil_append, List.filter_cons_of_pos]
  exact decide_eq_true hsat

/-- Nothing is selected if nothing is found. -/
lemma selected_eq_nil {a : Attributes σ δ} {items : List (Item σ δ)}
    (h : findMatchLocked a.service a.account a.label items = []) : selected a items = [] := by
  refine List.filter_eq_nil_iff.mpr fun x hx => ?_
  rw [decide_eq_true_eq]
  exact (findMatchLocked_eq_nil_iff a items).mp h x hx

/-- **The loop over all matches** finds what is asked for. -/
lemma matchesFrom_eq (a : Attributes σ δ) (items : List (Item σ δ)) :
    matchesFrom a items = (selected a items).map (entryAll a) := by
  induction items using matchesFrom.induct a with
  | case1 items hfound =>
    rw [matchesFrom, selected_eq_nil hfound]
    split
    · rfl
    · next it rest hcons =>
      rw [hfound] at hcons
      cases hcons
  | case2 items it rest hfound hlt ih =>
    rw [matchesFrom, selected_eq hfound, List.map_cons, ← ih]
    split
    · next hnil =>
      rw [hfound] at hnil
      cases hnil
    · next it' rest' hcons =>
      rw [hfound] at hcons
      obtain ⟨rfl, rfl⟩ := List.cons.inj hcons
      rfl

/-- Items that are not asked for stay. -/
lemma map_update_eq_self {a u : Attributes σ δ} {items : List (Item σ δ)}
    (h : ∀ it ∈ items, ¬Satisfies a it) :
    (items.map fun it => if Satisfies a it then updateItem u it else it) = items := by
  conv_rhs => rw [← List.map_id items]
  exact List.map_congr_left fun it hit => if_neg (h it hit)

/-- **The loop that updates** changes what is asked for. -/
lemma updateFrom_eq (a u : Attributes σ δ) (items : List (Item σ δ)) :
    updateFrom a u items = (!(selected a items).isEmpty,
      items.map fun it => if Satisfies a it then updateItem u it else it) := by
  induction items using updateFrom.induct a with
  | case1 items hfound =>
    have hnone := (findMatchLocked_eq_nil_iff a items).mp hfound
    rw [updateFrom, selected_eq_nil hfound, map_update_eq_self hnone]
    split
    · rfl
    · next it rest hcons =>
      rw [hfound] at hcons
      cases hcons
  | case2 items it rest hfound hlt ih =>
    obtain ⟨hsat, hsplit⟩ := findMatchLocked_eq_cons hfound
    rw [updateFrom, selected_eq hfound]
    split
    · next hnil =>
      rw [hfound] at hnil
      cases hnil
    · next it' rest' hcons =>
      rw [hfound] at hcons
      obtain ⟨rfl, rfl⟩ := List.cons.inj hcons
      have hbefore : ∀ x ∈ items.takeWhile
          fun it => !matchesItem a.service a.account a.label it, ¬Satisfies a x :=
        fun x hx => not_satisfies_of_mem_takeWhile hx
      refine Prod.ext rfl ?_
      conv_rhs => rw [hsplit]
      rw [List.map_append, List.map_cons, if_pos hsat, ih, map_update_eq_self hbefore]

/-- **The loop that deletes** leaves what is not asked for. -/
lemma deleteFrom_eq (a : Attributes σ δ) (items : List (Item σ δ)) :
    deleteFrom a items =
      (!(selected a items).isEmpty, items.filter fun it => ¬Satisfies a it) := by
  induction items with
  | nil => rfl
  | cons it rest ih =>
    rw [deleteFrom]
    by_cases hsat : Satisfies a it
    · rw [if_pos ((matchesItem_iff a it).mpr hsat), ih]
      simp [selected, hsat]
    · rw [if_neg (mt (matchesItem_iff a it).mp hsat), ih]
      simp [selected, hsat]

/-! ## The calls -/

omit [DecidableEq σ] in
/-- A dictionary for generic passwords passes the tests. -/
lemma checkedClass_of_generic {a : Attributes σ δ} (h : a.cls = some .genericPassword) :
    checkedClass (some a) = some a := by
  rw [checkedClass, Option.filter_some, if_pos (decide_eq_true h)]

/-- **Which items are taken for duplicates**: those whose key has all the components that are given.
-/
theorem status_add {items : List (Item σ δ)} {a : Attributes σ δ} {value : δ}
    (hcls : a.cls = some .genericPassword) (hvalue : a.valueData = some value)
    (hasResult memory : Bool) :
    (secItemAdd items (some a) hasResult memory).status = .duplicateItem ↔
      ∃ it ∈ items, Extends a.pair it.pair := by
  have hfind := findMatchLocked_eq_nil_iff { a with label := none } items
  have hextends : ∀ it : Item σ δ, Satisfies { a with label := none } it ↔
      Extends a.pair it.pair := by
    intro it
    simp [Satisfies, Extends, Attributes.pair, Item.pair]
  rw [secItemAdd, checkedClass_of_generic hcls]
  simp only [hvalue]
  by_cases hnil : findMatchLocked a.service a.account none items = []
  · have hnone := hfind.mp hnil
    rw [if_neg (not_not.mpr hnil)]
    constructor
    · intro hstatus
      cases memory <;> cases hstatus
    · rintro ⟨it, hit, hext⟩
      exact absurd ((hextends it).mpr hext) (hnone it hit)
  · rw [if_pos hnil]
    refine ⟨fun _ => ?_, fun _ => rfl⟩
    by_contra hnone
    refine hnil (hfind.mpr fun it hit hsat => hnone ⟨it, hit, (hextends it).mp hsat⟩)

/-- An update changes the items that its query asks for. -/
lemma secItemUpdate_eq {a : Attributes σ δ} (hcls : a.cls = some .genericPassword)
    (u : Attributes σ δ) (items : List (Item σ δ)) : secItemUpdate items (some a) (some u) =
      ⟨statusOf (selected a items), none,
        items.map fun it => if Satisfies a it then updateItem u it else it⟩ := by
  simp only [secItemUpdate, checkedClass_of_generic hcls, updateFrom_eq, statusOf]
  cases (selected a items).isEmpty with
  | true => rfl
  | false => rfl

/-- A deletion takes the items away that its query asks for. -/
lemma secItemDelete_eq {a : Attributes σ δ} (hcls : a.cls = some .genericPassword)
    (items : List (Item σ δ)) : secItemDelete items (some a) =
      ⟨statusOf (selected a items), none, items.filter fun it => ¬Satisfies a it⟩ := by
  simp only [secItemDelete, checkedClass_of_generic hcls, deleteFrom_eq, statusOf]
  cases (selected a items).isEmpty with
  | true => rfl
  | false => rfl

/-- A query for all matches gives the items that it asks for. -/
lemma secItemCopyMatching_all {a : Attributes σ δ} (hcls : a.cls = some .genericPassword)
    (hall : a.matchLimit = some .all) (items : List (Item σ δ)) :
    secItemCopyMatching items (some a) true = ⟨statusOf (selected a items),
      if (selected a items).isEmpty then none else some (.all ((selected a items).map (entryAll a))),
      items⟩ := by
  simp only [secItemCopyMatching, checkedClass_of_generic hcls, hall, matchesFrom_eq, statusOf]
  cases selected a items with
  | nil => rfl
  | cons it rest => rfl

/-- A query changes nothing. -/
lemma items_copyMatching (items : List (Item σ δ)) (query : Option (Attributes σ δ))
    (hasResult : Bool) : (secItemCopyMatching items query hasResult).items = items := by
  unfold secItemCopyMatching
  split
  · rfl
  · split <;> split <;> rfl

omit [DecidableEq σ] in
/-- What passes the tests is a dictionary for generic passwords. -/
lemma of_checkedClass {dict : Option (Attributes σ δ)} {a : Attributes σ δ}
    (h : checkedClass dict = some a) : dict = some a ∧ a.cls = some .genericPassword := by
  obtain ⟨hdict, hcls⟩ := Option.filter_eq_some_iff.mp h
  exact ⟨hdict, of_decide_eq_true hcls⟩

/-- If a call that needs an item fails, its query asks for none. -/
lemma not_satisfies_of_statusOf {a : Attributes σ δ} {items : List (Item σ δ)}
    (h : statusOf (selected a items) ≠ .success) : ∀ it ∈ items, ¬Satisfies a it := by
  intro it hit hsat
  have hmem : it ∈ selected a items := List.mem_filter.mpr ⟨hit, decide_eq_true hsat⟩
  refine h ?_
  rw [statusOf, if_neg]
  rw [List.isEmpty_iff]
  exact List.ne_nil_of_mem hmem

/-- A call that fails changes nothing. -/
lemma items_of_status_ne {items : List (Item σ δ)} {call : Call σ δ}
    (h : (perform items call).status ≠ .success) : (perform items call).items = items := by
  cases call with
  | copyMatching query hasResult => exact items_copyMatching items query hasResult
  | add attributes hasResult memory =>
    change (secItemAdd items attributes hasResult memory).status ≠ .success at h
    change (secItemAdd items attributes hasResult memory).items = items
    revert h
    unfold secItemAdd
    split
    · exact fun _ => rfl
    · split
      · exact fun _ => rfl
      · split_ifs
        · exact fun _ => rfl
        · exact fun _ => rfl
        · exact fun h => absurd rfl h
        · exact fun h => absurd rfl h
  | update query attributesToUpdate =>
    cases attributesToUpdate with
    | none => rfl
    | some u =>
      rw [perform] at h ⊢
      cases hchecked : checkedClass query with
      | none =>
        rw [secItemUpdate, hchecked]
      | some a =>
        obtain ⟨rfl, hcls⟩ := of_checkedClass hchecked
        rw [secItemUpdate_eq hcls] at h ⊢
        exact map_update_eq_self (not_satisfies_of_statusOf h)
  | delete query =>
    rw [perform] at h ⊢
    cases hchecked : checkedClass query with
    | none =>
      rw [secItemDelete, hchecked]
    | some a =>
      obtain ⟨rfl, hcls⟩ := of_checkedClass hchecked
      rw [secItemDelete_eq hcls] at h ⊢
      refine List.filter_eq_self.mpr fun it hit => decide_eq_true ?_
      exact not_satisfies_of_statusOf h it hit

/-- An item that is added comes first, and none has all the components of its key. -/
lemma secItemAdd_of_success {items : List (Item σ δ)} {attributes : Option (Attributes σ δ)}
    {hasResult memory : Bool}
    (h : (secItemAdd items attributes hasResult memory).status = .success) :
    ∃ a value, attributes = some a ∧ a.cls = some .genericPassword ∧ a.valueData = some value ∧
      (∀ it ∈ items, ¬Extends a.pair it.pair) ∧
      (secItemAdd items attributes hasResult memory).items =
        ⟨a.service, a.account, a.label, value⟩ :: items := by
  cases hchecked : checkedClass attributes with
  | none =>
    rw [secItemAdd, hchecked] at h
    cases h
  | some a =>
    obtain ⟨rfl, hcls⟩ := of_checkedClass hchecked
    cases hvalue : a.valueData with
    | none =>
      simp only [secItemAdd, hchecked, hvalue] at h
      cases h
    | some value =>
      have hnew : ∀ it ∈ items, ¬Extends a.pair it.pair := by
        intro it hit hext
        have hduplicate := (status_add hcls hvalue hasResult memory).mpr ⟨it, hit, hext⟩
        rw [hduplicate] at h
        cases h
      refine ⟨a, value, rfl, hcls, hvalue, hnew, ?_⟩
      simp only [secItemAdd, hchecked, hvalue] at h ⊢
      split_ifs at h ⊢
      · rfl
      · rfl

/-- **What a call does to the items**, in all. -/
lemma items_perform (items : List (Item σ δ)) (call : Call σ δ) :
    (perform items call).items = items ∨
    (∃ a value hasResult memory, call = .add (some a) hasResult memory ∧
      a.cls = some .genericPassword ∧ a.valueData = some value ∧
      (∀ it ∈ items, ¬Extends a.pair it.pair) ∧
      (perform items call).items = ⟨a.service, a.account, a.label, value⟩ :: items) ∨
    (∃ a u, (perform items call).items =
      items.map fun it => if Satisfies a it then updateItem u it else it) ∨
    ∃ a, (perform items call).items = items.filter fun it => ¬Satisfies a it := by
  by_cases hstatus : (perform items call).status = .success
  · cases call with
    | copyMatching query hasResult => exact Or.inl (items_copyMatching items query hasResult)
    | add attributes hasResult memory =>
      obtain ⟨a, value, rfl, hcls, hvalue, hnew, hitems⟩ := secItemAdd_of_success hstatus
      exact Or.inr (Or.inl ⟨a, value, hasResult, memory, rfl, hcls, hvalue, hnew, hitems⟩)
    | update query attributesToUpdate =>
      cases attributesToUpdate with
      | none => cases hstatus
      | some u =>
        cases hchecked : checkedClass query with
        | none =>
          rw [perform, secItemUpdate, hchecked] at hstatus
          cases hstatus
        | some a =>
          obtain ⟨rfl, hcls⟩ := of_checkedClass hchecked
          refine Or.inr (Or.inr (Or.inl ⟨a, u, ?_⟩))
          rw [perform, secItemUpdate_eq hcls]
    | delete query =>
      cases hchecked : checkedClass query with
      | none =>
        rw [perform, secItemDelete, hchecked] at hstatus
        cases hstatus
      | some a =>
        obtain ⟨rfl, hcls⟩ := of_checkedClass hchecked
        refine Or.inr (Or.inr (Or.inr ⟨a, ?_⟩))
        rw [perform, secItemDelete_eq hcls]
  · exact Or.inl (items_of_status_ne hstatus)

/-! ## Keys apart -/

/-- **The invariant**: no key has all the components of another. -/
def Apart (items : List (Item σ δ)) : Prop :=
  items.Pairwise fun it it' => ¬Extends it.pair it'.pair ∧ ¬Extends it'.pair it.pair

omit [DecidableEq σ] in
/-- A key has its own components. -/
lemma Extends.refl (p : Option σ × Option σ) : Extends p p := ⟨fun _ h => h, fun _ h => h⟩

/-- An update keeps the key. -/
lemma pair_update (a u : Attributes σ δ) (it : Item σ δ) :
    (if Satisfies a it then updateItem u it else it).pair = it.pair := by
  split_ifs
  · rfl
  · rfl

/-- **A call with a key apart from those stored keeps the keys apart.** -/
lemma Apart.step {items : List (Item σ δ)} (h : Apart items) {call : Call σ δ}
    (hcall : Separated items call) : Apart (perform items call).items := by
  rcases items_perform items call with hsame | hadd | ⟨a, u, hupdate⟩ | ⟨a, hdelete⟩
  · rw [hsame]
    exact h
  · obtain ⟨a, value, hasResult, memory, rfl, hcls, hvalue, hnew, hitems⟩ := hadd
    rw [hitems]
    refine List.pairwise_cons.mpr ⟨fun it hit => ⟨hnew it hit, fun hext => ?_⟩, h⟩
    have hpair := hcall hcls (by rw [hvalue]; exact Option.some_ne_none _) it hit (Or.inr hext)
    refine hnew it hit ?_
    rw [hpair]
    exact Extends.refl _
  · rw [hupdate]
    refine List.pairwise_map.mpr (h.imp fun {it it'} hapart => ?_)
    rw [pair_update, pair_update]
    exact hapart
  · rw [hdelete]
    exact h.filter _

omit [DecidableEq σ] in
/-- Keys that are apart are not equal. -/
lemma Apart.distinct {items : List (Item σ δ)} (h : Apart items) :
    items.Pairwise fun it it' => it.pair ≠ it'.pair :=
  List.Pairwise.imp (fun {it it'} hapart hpair => hapart.1 (by rw [hpair]; exact .refl _)) h

/-- In a store with keys that are apart, a query for all attributes of an item finds it. -/
lemma Apart.found {items : List (Item σ δ)} (h : Apart items) {it : Item σ δ} (hit : it ∈ items) :
    secItemCopyMatching items (some (queryOf it)) true =
      ⟨.success, some (.one (.data it.data)), items⟩ := by
  have hself : Satisfies (queryOf it) it := ⟨fun _ h => h, fun _ h => h, fun _ h => h⟩
  have hchecked : checkedClass (some (queryOf it)) = some (queryOf it) := checkedClass_of_generic rfl
  simp only [secItemCopyMatching, hchecked]
  cases hfound : findMatchLocked (queryOf it).service (queryOf it).account (queryOf it).label
      items with
  | nil => exact absurd hself ((findMatchLocked_eq_nil_iff (queryOf it) items).mp hfound it hit)
  | cons it' rest =>
    obtain ⟨hsat, hsplit⟩ := findMatchLocked_eq_cons hfound
    have hit' : it' ∈ items := by
      rw [hsplit]
      exact List.mem_append_right _ List.mem_cons_self
    have hext : Extends it.pair it'.pair := ⟨hsat.1, hsat.2.1⟩
    have heq : it' = it := by
      by_contra hne
      have hsymm : Std.Symm fun x y : Item σ δ =>
          ¬Extends x.pair y.pair ∧ ¬Extends y.pair x.pair := ⟨fun x y hxy => ⟨hxy.2, hxy.1⟩⟩
      exact (List.Pairwise.forall h hit hit' (Ne.symm hne)).1 hext
    rw [heq]
    rfl

/-! ## All calls -/

/-- What a call does, if its key is apart from those stored. -/
lemma callLaw {items : List (Item σ δ)} {call : Call σ δ} (hcall : Separated items call) :
    CallLaw items call := by
  refine ⟨items_of_status_ne, ?_, ?_, ?_, ?_, ?_⟩
  · rintro a value hasResult memory rfl hcls hvalue
    rw [perform, status_add hcls hvalue]
    constructor
    · rintro ⟨it, hit, hext⟩
      exact ⟨it, hit, hcall hcls (by rw [hvalue]; exact Option.some_ne_none _) it hit (Or.inl hext)⟩
    · rintro ⟨it, hit, hpair⟩
      exact ⟨it, hit, hpair ▸ Extends.refl _⟩
  · rintro a value hasResult rfl hcls hvalue hstatus
    have hsuccess : (secItemAdd items (some a) hasResult true).status = .success := by
      rw [perform] at hstatus
      simp only [secItemAdd, checkedClass_of_generic hcls, hvalue, Bool.not_true,
        Bool.false_eq_true, ↓reduceIte] at hstatus ⊢
      by_cases hfound : findMatchLocked a.service a.account none items = []
      · rw [if_neg (not_not.mpr hfound)]
      · rw [if_pos hfound] at hstatus
        exact absurd rfl hstatus
    obtain ⟨a', value', ha, -, hvalue', -, hitems⟩ := secItemAdd_of_success hsuccess
    obtain rfl := Option.some.inj ha
    obtain rfl := Option.some.inj (hvalue.symm.trans hvalue')
    exact ⟨hsuccess, hitems⟩
  · rintro a rfl hcls hall
    exact secItemCopyMatching_all hcls hall items
  · rintro a u rfl hcls
    exact secItemUpdate_eq hcls u items
  · rintro a rfl hcls
    exact secItemDelete_eq hcls items

/-- **The keychain is a set of records**, in every run in which items are added with keys apart from
those stored.

**Proof sketch.** Then no key has all the components of another, at any time, so that what the walk
finds is the item with the key. -/
theorem keychain {calls : List (Call σ δ)} {items : List (Item σ δ)}
    (hcalls : Along callStep Separated [] calls) (h : exec callStep [] calls = some items) :
    Keyed items ∧ ∀ call, Separated items call → CallLaw items call := by
  have hapart : Apart items := by
    refine invariant_along (P := Apart) (fun s call t hs hcall hstep => ?_) List.Pairwise.nil
      hcalls h
    obtain rfl := Option.some.inj hstep
    exact hs.step hcall
  exact ⟨⟨hapart.distinct, fun it hit => hapart.found hit⟩, fun call hcall => callLaw hcall⟩

/-- The query for all matches that gives the key of a dictionary. -/
def Attributes.query (a : Attributes σ δ) : Attributes σ δ :=
  { a with label := none, valueData := none, matchLimit := some .all }

/-- **What was added is found alone and can be taken back**, whatever is stored: a query with its key
finds nothing else, and a deletion with its key leaves what was stored before, in the same order. -/
theorem add_takenBack {items : List (Item σ δ)} {a : Attributes σ δ} {hasResult memory : Bool}
    (h : (secItemAdd items (some a) hasResult memory).status = .success) :
    ∃ it : Item σ δ, it.pair = a.pair ∧ it.label = a.label ∧ a.valueData = some it.data ∧
      secItemCopyMatching (secItemAdd items (some a) hasResult memory).items (some a.query) true =
        ⟨.success, some (.all [entryAll a.query it]), it :: items⟩ ∧
      secItemDelete (secItemAdd items (some a) hasResult memory).items (some a.query) =
        ⟨.success, none, items⟩ := by
  obtain ⟨_, value, ha, hcls, hvalue, hnew, hitems⟩ := secItemAdd_of_success h
  obtain rfl := Option.some.inj ha
  rw [hitems]
  let new : Item σ δ := ⟨a.service, a.account, a.label, value⟩
  have hself : Satisfies a.query new :=
    ⟨fun _ h => h, fun _ h => h, by simp [Attributes.query]⟩
  have hothers : ∀ it ∈ items, ¬Satisfies a.query it := fun it hit hsat =>
    hnew it hit ⟨hsat.1, hsat.2.1⟩
  have hselected : selected a.query (new :: items) = [new] := by
    have hnone : selected a.query items = [] :=
      List.filter_eq_nil_iff.2 fun it hit => by simpa using hothers it hit
    simp only [selected] at hnone ⊢
    simp [hself, hnone]
  have hleft : ((new :: items).filter fun it => ¬Satisfies a.query it) = items := by
    rw [List.filter_cons_of_neg (by simpa using hself)]
    exact List.filter_eq_self.2 fun it hit => by simpa using hothers it hit
  refine ⟨new, rfl, rfl, hvalue, ?_, ?_⟩
  · rw [secItemCopyMatching_all (a := a.query) hcls rfl, hselected]
    rfl
  · rw [secItemDelete_eq (a := a.query) hcls, hselected, hleft]
    rfl

/-- A dictionary with a service, an account and data. -/
def password (service account : Option ℕ) (data : ℕ) : Attributes ℕ ℕ where
  cls := some .genericPassword
  service := service
  account := account
  label := none
  valueData := some data
  returnData := false
  returnAttributes := false
  matchLimit := none

/-- Two accounts of one service are added. -/
def accounts : List (Call ℕ ℕ) :=
  [.add (some (password (some 1) (some 2) 7)) false true,
    .add (some (password (some 1) (some 3) 8)) false true]

/-- Two accounts of one service have keys apart. -/
theorem keychain_accounts : ∃ items, exec callStep [] accounts = some items ∧ items.length = 2 ∧
    Keyed items ∧ ∀ call, Separated items call → CallLaw items call := by
  have hcalls : Along callStep Separated [] accounts := by
    refine ⟨fun _ _ it hit => absurd hit List.not_mem_nil, fun t ht => ?_⟩
    obtain rfl := Option.some.inj ht
    refine ⟨fun _ _ it hit hext => ?_, fun _ _ => trivial⟩
    obtain rfl := List.mem_singleton.mp hit
    rcases hext with hext | hext
    · exact absurd (hext.2 3 rfl) (by decide)
    · exact absurd (hext.2 2 rfl) (by decide)
  exact ⟨_, rfl, rfl, keychain hcalls rfl⟩

/-- An item without a service is taken for a duplicate of one that has a service. -/
theorem not_callLaw_withoutService : ∃ items,
    exec callStep [] [.add (some (password (some 1) (some 2) 7)) false true] = some items ∧
      ¬CallLaw items (.add (some (password none (some 2) 8)) false true) := by
  refine ⟨_, rfl, fun h => ?_⟩
  obtain ⟨it, hit, hpair⟩ := (h.duplicate _ 8 false true rfl rfl rfl).mp (by decide)
  obtain rfl := List.mem_singleton.mp hit
  cases hpair

/-- A second account of a service is taken back. -/
theorem add_takenBack_second : secItemDelete
    (secItemAdd [⟨some 1, some 2, none, 7⟩] (some (password (some 1) (some 3) 8)) false true).items
    (some (password (some 1) (some 3) 8).query) = ⟨.success, none, [⟨some 1, some 2, none, 7⟩]⟩ := by
  have hadd : (secItemAdd [⟨some 1, some 2, none, 7⟩] (some (password (some 1) (some 3) 8)) false
      true).status = .success := rfl
  obtain ⟨_, -, -, -, -, h⟩ := add_takenBack hadd
  exact h

end Asteros.Security
