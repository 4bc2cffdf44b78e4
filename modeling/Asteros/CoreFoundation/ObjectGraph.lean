import Mathlib.Data.List.Basic
import Mathlib.Tactic.Linarith

set_option autoImplicit false

/-!
# Graphs of objects

Core Foundation objects that refer to each other: the containers with the callbacks of their own
types, and strings, data and booleans. `CFEqual` and `CFHash` go by the class of an object. An
object is known by its place in the order of creation, and none is destroyed; no pointer is `NULL`.

A comparison has no result if it does not come to an end, which happens when containers contain
themselves. The functions that search have none then, either.

## Main definitions

* `Body`, `Objects` — the objects.
* `cfEqual`, `cfHash` — the comparison and the hash code.
* `Make`, `Change` — the functions that create and change objects.
* `step` — a call of one of them.
-/

namespace Asteros.CoreFoundation.Graph

/-- An object of one of the classes. Elements are known by their places. -/
inductive Body where
  /-- A `CFString`. -/
  | string (buffer : List UInt8)
  /-- A `CFData`. -/
  | data (bytes : List UInt8)
  /-- A `CFBoolean`. -/
  | boolean (value : Bool)
  /-- A `CFArray`. -/
  | array (values : List ℕ)
  /-- A `CFDictionary`, the keys with their values. -/
  | dictionary (entries : List (ℕ × ℕ))
  /-- A `CFSet`. -/
  | set (values : List ℕ)
  deriving DecidableEq

/-- The objects in the order of creation. -/
abbrev Objects := List Body

/-- What an object refers to. -/
def Body.refs : Body → List ℕ
  | .array values => values
  | .dictionary entries => entries.map Prod.fst ++ entries.map Prod.snd
  | .set values => values
  | _ => []

/-- The keys of a dictionary, and the members of a set. -/
def Body.guarded : Body → List ℕ
  | .dictionary entries => entries.map Prod.fst
  | .set values => values
  | _ => []

/-! ## Comparing -/

/-- `dictFind` and `setFind`: where the first is that is equal, if one is. -/
def find (equal : ℕ → ℕ → Option Bool) (value : ℕ) : List ℕ → Option (Option ℕ)
  | [] => some none
  | x :: xs => (equal x value).bind fun e =>
      if e then some (some 0) else (find equal value xs).map fun i => i.map (· + 1)

/-- The loop of `arrayEqual`. -/
def valuesEqual (equal : ℕ → ℕ → Option Bool) : List ℕ → List ℕ → Option Bool
  | x :: xs, y :: ys =>
    (equal x y).bind fun e => if e then valuesEqual equal xs ys else some false
  | _, _ => some true

/-- `CFDictionaryGetValue`. -/
def getValue (equal : ℕ → ℕ → Option Bool) (entries : List (ℕ × ℕ)) (key : ℕ) :
    Option (Option ℕ) :=
  (find equal key (entries.map Prod.fst)).map fun i => i.bind fun i => (entries.map Prod.snd)[i]?

/-- The loop of `dictEqual`, over the entries of one dictionary. -/
def entriesEqual (equal : ℕ → ℕ → Option Bool) (b : List (ℕ × ℕ)) :
    List (ℕ × ℕ) → Option Bool
  | [] => some true
  | e :: es => (getValue equal b e.1).bind fun found =>
      match found with
      | none => some false
      | some v => (equal e.2 v).bind fun eq => if eq then entriesEqual equal b es else some false

/-- The loop of `setEqual`, over the members of one set. -/
def membersEqual (equal : ℕ → ℕ → Option Bool) (b : List ℕ) : List ℕ → Option Bool
  | [] => some true
  | x :: xs => (find equal x b).bind fun i =>
      if i.isSome then membersEqual equal b xs else some false

/-- The `equal` of the classes, with `equal` for the elements. -/
def Body.equal (equal : ℕ → ℕ → Option Bool) : Body → Body → Option Bool
  | .string a, .string b => some (a == b)
  | .data a, .data b => some (a == b)
  | .boolean a, .boolean b => some (a == b)
  | .array a, .array b =>
    if a.length ≠ b.length then some false else valuesEqual equal a b
  | .dictionary a, .dictionary b =>
    if a.length ≠ b.length then some false else entriesEqual equal b a
  | .set a, .set b => if a.length ≠ b.length then some false else membersEqual equal b a
  | _, _ => some false

/-- `CFEqual`, with nested calls up to a depth. -/
def cfEqual : ℕ → Objects → ℕ → ℕ → Option Bool
  | 0, _, _, _ => none
  | depth + 1, h, cf1, cf2 =>
    if cf1 = cf2 then some true
    else
      match h[cf1]?, h[cf2]? with
      | some b1, some b2 => b1.equal (cfEqual depth h) b2
      | _, _ => none

/-- The loop of `stringHash` and `dataHash`. -/
def hashBytes (bytes : List UInt8) : ℕ :=
  bytes.foldl (fun h b => (h ^^^ b.toNat) * 16777619 % 2 ^ 64) 2166136261

/-- The `hash` of the classes. -/
def Body.hash : Body → ℕ
  | .string buffer => hashBytes buffer
  | .data bytes => hashBytes bytes
  | .boolean value => if value then 1 else 0
  | .array values => values.length
  | .dictionary entries => entries.length
  | .set values => values.length

/-- `CFHash`. -/
def cfHash (h : Objects) (cf : ℕ) : Option ℕ := h[cf]?.map Body.hash

/-! ## Creating -/

/-- The functions that create objects. A mutable string or data may begin with any bytes. -/
inductive Make where
  /-- The constructors of strings. -/
  | string (buffer : List UInt8)
  /-- The constructors of data. -/
  | data (bytes : List UInt8)
  /-- `CFArrayCreate`. -/
  | array (values : List ℕ)
  /-- `CFArrayCreateMutable`. -/
  | arrayMutable
  /-- `CFArrayCreateCopy` and `CFArrayCreateMutableCopy`. -/
  | arrayCopy (theArray : ℕ)
  /-- `CFDictionaryCreate`. -/
  | dictionary (entries : List (ℕ × ℕ))
  /-- `CFDictionaryCreateMutable`. -/
  | dictionaryMutable
  /-- `CFDictionaryCreateCopy` and `CFDictionaryCreateMutableCopy`. -/
  | dictionaryCopy (theDict : ℕ)
  /-- `CFSetCreate`. -/
  | set (values : List ℕ)
  /-- `CFSetCreateMutable`. -/
  | setMutable
  /-- `CFSetCreateCopy`. -/
  | setCopy (theSet : ℕ)
  /-- `CFSetCreateMutableCopy`. -/
  | setMutableCopy (theSet : ℕ)

/-- The elements that are passed. -/
def Make.args : Make → List ℕ
  | .array values => values
  | .dictionary entries => entries.map Prod.fst ++ entries.map Prod.snd
  | .set values => values
  | _ => []

/-- The loop of `CFSetCreate`, with the members so far. -/
def setCreate (equal : ℕ → ℕ → Option Bool) (s : List ℕ) : List ℕ → Option (List ℕ)
  | [] => some s
  | x :: xs => (find equal x s).bind fun i =>
      if i.isSome then setCreate equal s xs else setCreate equal (s ++ [x]) xs

/-- The object that is created. -/
def Make.body (equal : ℕ → ℕ → Option Bool) (h : Objects) : Make → Option Body
  | .string buffer => some (.string buffer)
  | .data bytes => some (.data bytes)
  | .array values => some (.array values)
  | .arrayMutable => some (.array [])
  | .arrayCopy theArray =>
    match h[theArray]? with
    | some (.array values) => some (.array values)
    | _ => none
  | .dictionary entries => some (.dictionary entries)
  | .dictionaryMutable => some (.dictionary [])
  | .dictionaryCopy theDict =>
    match h[theDict]? with
    | some (.dictionary entries) => some (.dictionary entries)
    | _ => none
  | .set values => (setCreate equal [] values).map .set
  | .setMutable => some (.set [])
  | .setCopy theSet =>
    match h[theSet]? with
    | some (.set values) => (setCreate equal [] values).map .set
    | _ => none
  | .setMutableCopy theSet =>
    match h[theSet]? with
    | some (.set values) => some (.set values)
    | _ => none

/-! ## Changing -/

/-- The functions that change an object. -/
inductive Change where
  /-- A mutable string or data takes other bytes. -/
  | setBytes (bytes : List UInt8)
  /-- `CFArrayAppendValue`. -/
  | appendValue (value : ℕ)
  /-- `CFArrayInsertValueAtIndex`. -/
  | insertValueAtIndex (idx value : ℕ)
  /-- `CFArraySetValueAtIndex`. -/
  | setValueAtIndex (idx value : ℕ)
  /-- `CFArrayRemoveValueAtIndex`. -/
  | removeValueAtIndex (idx : ℕ)
  /-- `CFDictionarySetValue`. -/
  | dictSetValue (key value : ℕ)
  /-- `CFDictionaryAddValue`. -/
  | dictAddValue (key value : ℕ)
  /-- `CFDictionaryRemoveValue`. -/
  | dictRemoveValue (key : ℕ)
  /-- `CFSetAddValue`. -/
  | setAddValue (value : ℕ)
  /-- `CFSetSetValue`. -/
  | setSetValue (value : ℕ)
  /-- `CFSetRemoveValue`. -/
  | setRemoveValue (value : ℕ)
  /-- `CFArrayRemoveAllValues`, `CFDictionaryRemoveAllValues` and `CFSetRemoveAllValues`. -/
  | removeAllValues

/-- The elements that are passed. -/
def Change.args : Change → List ℕ
  | .appendValue value => [value]
  | .insertValueAtIndex _ value => [value]
  | .setValueAtIndex _ value => [value]
  | .dictSetValue key value => [key, value]
  | .dictAddValue key value => [key, value]
  | .dictRemoveValue key => [key]
  | .setAddValue value => [value]
  | .setSetValue value => [value]
  | .setRemoveValue value => [value]
  | _ => []

/-- `CFDictionarySetValue` on the entries. -/
def storeValue (equal : ℕ → ℕ → Option Bool) (entries : List (ℕ × ℕ)) (key value : ℕ) :
    Option (List (ℕ × ℕ)) :=
  (find equal key (entries.map Prod.fst)).map fun i =>
    match i with
    | some i => entries.modify i fun e => (e.1, value)
    | none => entries ++ [(key, value)]

/-- `CFSetAddValue` on the members. -/
def addMember (equal : ℕ → ℕ → Option Bool) (values : List ℕ) (value : ℕ) :
    Option (List ℕ) :=
  (find equal value values).map fun i => if i.isSome then values else values ++ [value]

/-- The object after the change. An index behind the end has no result. -/
def Change.body (equal : ℕ → ℕ → Option Bool) : Change → Body → Option Body
  | .setBytes bytes, .string _ => some (.string bytes)
  | .setBytes bytes, .data _ => some (.data bytes)
  | .appendValue value, .array values => some (.array (values ++ [value]))
  | .insertValueAtIndex idx value, .array values =>
    if idx ≤ values.length then some (.array (values.insertIdx idx value)) else none
  | .setValueAtIndex idx value, .array values =>
    if idx < values.length then some (.array (values.set idx value)) else none
  | .removeValueAtIndex idx, .array values =>
    if idx < values.length then some (.array (values.eraseIdx idx)) else none
  | .dictSetValue key value, .dictionary entries =>
    (storeValue equal entries key value).map .dictionary
  | .dictAddValue key value, .dictionary entries =>
    (find equal key (entries.map Prod.fst)).bind fun i =>
      if i.isSome then some (.dictionary entries)
      else (storeValue equal entries key value).map .dictionary
  | .dictRemoveValue key, .dictionary entries =>
    (find equal key (entries.map Prod.fst)).map fun i =>
      match i with
      | some i => .dictionary (entries.eraseIdx i)
      | none => .dictionary entries
  | .setAddValue value, .set values => (addMember equal values value).map .set
  | .setSetValue value, .set values =>
    (find equal value values).bind fun i =>
      match i with
      | some i => some (.set (values.set i value))
      | none => (addMember equal values value).map .set
  | .setRemoveValue value, .set values =>
    (find equal value values).map fun i =>
      match i with
      | some i => .set (values.eraseIdx i)
      | none => .set values
  | .removeAllValues, .array _ => some (.array [])
  | .removeAllValues, .dictionary _ => some (.dictionary [])
  | .removeAllValues, .set _ => some (.set [])
  | _, _ => none

/-! ## Steps -/

/-- A call of a function, with the depth that its comparisons may have. -/
inductive Action where
  /-- An object is created. -/
  | make (depth : ℕ) (m : Make)
  /-- An object is changed. -/
  | change (depth a : ℕ) (c : Change)

/-- A call. The elements that are passed are objects. -/
def step (h : Objects) : Action → Option Objects
  | .make depth m =>
    if ∀ x ∈ m.args, x < h.length then (m.body (cfEqual depth h) h).map fun b => h ++ [b]
    else none
  | .change depth a c =>
    if ∀ x ∈ c.args, x < h.length then
      h[a]?.bind fun b => (c.body (cfEqual depth h) b).map fun b => h.set a b
    else none

/-- `kCFBooleanFalse` and `kCFBooleanTrue`. -/
def start : Objects := [.boolean false, .boolean true]

end Asteros.CoreFoundation.Graph
