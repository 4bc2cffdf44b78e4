import Asteros.Lib.KeyedList
import Asteros.Lib.Refcount
import Asteros.Xpc.ArrayGrowth
import Mathlib.Data.Finset.Lattice.Fold
import Mathlib.Order.Lattice.Nat

set_option autoImplicit false

/-!
# Counted objects

XPC objects at their addresses, with their reference counts. Containers hold a reference to each of
their elements and release them when they are destroyed, a dictionary also one to the connection it
came from, and a connection one to each of its peers. The three error singletons are not counted.

The counts are numbers here, and no address is used twice. There is memory for every object and for
every vector whose size can be written down.

## Main definitions

* `Body`, `Objects` — the objects.
* `xpcDictionarySetValue`, `xpcArraySetValue` — storing a value.
* `CanStore` — the slot is a new one, or something else keeps the container and the value.

## Main results

* `setValue_spec` — what a call does that returns.
* `setValue_iff` — exactly when the slot holds the value, and it is alive.
-/

namespace Asteros.Xpc.Graph

open Asteros.Libc Refcount

/-- The type tag of an object with the member of the union that it selects. The pointers to other
objects are addresses, and of a connection only the peers are counted. -/
inductive Body where
  | null
  | bool (b : Bool)
  | int64 (i64 : Int64)
  | uint64 (u64 : UInt64)
  | double (d : UInt64)
  | string (bytes : List UInt8)
  | data (bytes : List UInt8)
  | array (arr : Vector ℕ)
  | dictionary (head : List (CString × ℕ)) (assocConn : Option ℕ) (assocMsgid : ℕ)
  | connection (peers : List (ℕ × ℕ))
  | error (errDesc : CString)
  deriving DecidableEq

/-- The objects. -/
abbrev Objects := Heap ℕ Body

/-- What the destruction of an object releases, in this order. -/
def Body.refs : Body → List ℕ
  | .array arr => arr.items
  | .dictionary head assocConn _ => head.map Prod.snd ++ assocConn.toList
  | .connection peers => peers.map Prod.snd
  | _ => []

/-- `_xpc_object_alloc`. -/
def xpcObjectAlloc (h : Objects) (body : Body) : Objects × ℕ :=
  let obj := h.dom.sup id + 1
  (h.put obj ⟨1, false, body⟩, obj)

/-- `xpc_release`. -/
def xpcRelease (depth : ℕ) (h : Objects) (object : ℕ) : Option Objects :=
  release Body.refs depth h object

/-- `xpc_retain`. -/
def xpcRetain (h : Objects) (object : ℕ) : Option Objects := retain h object

/-- There is memory for every block. -/
def memory : Allocator := ⟨fun _ => true, 0⟩

/-! ## Dictionaries -/

/-- `kv->value = value` in the entry with that key. -/
def Body.storeKv (key : CString) (value : ℕ) : Body → Body
  | .dictionary head conn msgid =>
    .dictionary (KeyedList.replace KeyedList.same key value head) conn msgid
  | body => body

/-- A new entry at the head of the list. -/
def Body.pushKv (key : CString) (value : ℕ) : Body → Body
  | .dictionary head conn msgid => .dictionary ((key, value) :: head) conn msgid
  | body => body

/-- `xpc_dictionary_set_value`: the value of an existing key is released before the new one is
retained. -/
def xpcDictionarySetValue (depth : ℕ) (h : Objects) (xdict : ℕ) (key : CString) (value : ℕ) :
    Option Objects :=
  match (h.cell xdict).map Cell.body with
  | some (.dictionary head _ _) =>
    match KeyedList.find KeyedList.same head key with
    | some old => (xpcRelease depth h old).bind fun h => (xpcRetain h value).bind fun h =>
        modify h xdict (Body.storeKv key value)
    | none => (xpcRetain h value).bind fun h => modify h xdict (Body.pushKv key value)
  | _ => none

/-- `xpc_dictionary_get_value`. -/
def xpcDictionaryGetValue (h : Objects) (xdict : ℕ) (key : CString) : Option ℕ :=
  match (h.cell xdict).map Cell.body with
  | some (.dictionary head _ _) => KeyedList.find KeyedList.same head key
  | _ => none

/-! ## Arrays -/

/-- `items[index] = value` in the place of an element. -/
def Body.storeItem (index value : ℕ) : Body → Body
  | .array arr => .array { arr with items := arr.items.set index value }
  | body => body

/-- The loop of `xpc_array_set_value` that fills a gap with `n` null objects. -/
def fillNulls (room : ℕ) : ℕ → Objects → List ℕ → Option (Objects × List ℕ)
  | 0, h, items => some (h, items)
  | n + 1, h, items =>
    let (h, obj) := xpcObjectAlloc h .null
    match push room items obj with
    | .error _ => none
    | .ok items => fillNulls room n h items

/-- `items[count++] = xpc_retain(value)`, in the vector that has grown. -/
def appendItem (h : Objects) (xarray : ℕ) (grown : Vector ℕ) (value : ℕ) : Option Objects :=
  (xpcRetain h value).bind fun h =>
    match push grown.room grown.items value with
    | .error _ => none
    | .ok items => modify h xarray fun _ => .array { grown with items }

/-- `xpc_array_append_value`. -/
def xpcArrayAppendValue (depth : ℕ) (h : Objects) (xarray value : ℕ) : Option Objects :=
  match (h.cell xarray).map Cell.body with
  | some (.array arr) =>
    (ensureCap depth memory arr (sizeAdd arr.items.length 1)).bind fun grown =>
      appendItem h xarray grown value
  | _ => none

/-- `xpc_array_set_value`: an element is released before the new one is retained. -/
def xpcArraySetValue (depth : ℕ) (h : Objects) (xarray index value : ℕ) : Option Objects :=
  match (h.cell xarray).map Cell.body with
  | some (.array arr) =>
    if index = xpcArrayAppend then xpcArrayAppendValue depth h xarray value
    else
      match arr.items[index]? with
      | none =>
        (ensureCap depth memory arr (sizeAdd index 1)).bind fun grown =>
          (fillNulls grown.room (index - arr.items.length) h grown.items).bind fun (h, items) =>
            appendItem h xarray { grown with items } value
      | some old => (xpcRelease depth h old).bind fun h => (xpcRetain h value).bind fun h =>
          modify h xarray (Body.storeItem index value)
  | _ => none

/-- `xpc_array_get_value`. -/
def xpcArrayGetValue (h : Objects) (xarray index : ℕ) : Option ℕ :=
  match (h.cell xarray).map Cell.body with
  | some (.array arr) => arr.items[index]?
  | _ => none

/-! ## Slots -/

/-- Where a value is stored: under a key of a dictionary, or at an index of an array. -/
inductive Slot where
  | key (key : CString)
  | index (index : ℕ)
  deriving DecidableEq

/-- The function that stores. -/
def setValue (depth : ℕ) (h : Objects) (container : ℕ) (slot : Slot) (value : ℕ) :
    Option Objects :=
  match slot with
  | .key key => xpcDictionarySetValue depth h container key value
  | .index index => xpcArraySetValue depth h container index value

/-- The function that looks up. -/
def getValue (h : Objects) (container : ℕ) : Slot → Option ℕ
  | .key key => xpcDictionaryGetValue h container key
  | .index index => xpcArrayGetValue h container index

namespace Body

/-- The value in a slot. -/
def entry : Body → Slot → Option ℕ
  | .dictionary head _ _, .key key => KeyedList.find KeyedList.same head key
  | .array arr, .index index => arr.items[index]?
  | _, _ => none

/-- The container with a slot taken out. -/
def without : Body → Slot → Body
  | .dictionary head conn msgid, .key key =>
    .dictionary (KeyedList.erase KeyedList.same key head) conn msgid
  | .array arr, .index index => .array { arr with items := arr.items.eraseIdx index }
  | body, _ => body

/-- The container with another value in a slot that it has. -/
def stored (value : ℕ) (slot : Slot) (body : Body) : Body :=
  match slot with
  | .key key => storeKv key value body
  | .index index => storeItem index value body

/-- The slot is one for the container, and of an array the vector is well-formed. -/
def Takes : Body → Slot → Prop
  | .dictionary _ _ _, .key _ => True
  | .array arr, .index index => arr.WellFormed ∧ index < 2 ^ 64
  | _, _ => False

/-- Where the value is stored: `XPC_ARRAY_APPEND` is behind the last element. -/
def place : Body → Slot → Slot
  | .array arr, .index index => .index (if index = xpcArrayAppend then arr.items.length else index)
  | _, slot => slot

/-- The vector of an array is well-formed, and a dictionary lists no key twice. -/
def Sound : Body → Prop
  | .array arr => arr.WellFormed
  | .dictionary head _ _ => KeyedList.Distinct KeyedList.same head
  | _ => True

/-- The container can have the slot: of a vector the size can be written down. -/
def Grows (body : Body) (slot : Slot) : Prop := ∀ index, body.place slot = .index index → index < 2 ^ 60

end Body

/-- The slot is a new one that the container can have, or something other than the slot keeps the
container and the value. -/
def CanStore (h : Objects) (owed : ℕ → ℕ) (container : ℕ) (slot : Slot) (value : ℕ) : Prop :=
  ∃ c, h.cell container = some c ∧ ((c.body.entry slot = none ∧ c.body.Grows slot) ∨
    ((c.body.entry slot).isSome = true ∧
      ¬Doomed Body.refs (h.put container { c with body := c.body.without slot }) owed container ∧
      ¬Doomed Body.refs (h.put container { c with body := c.body.without slot }) owed value))

section

variable {h h' g : Objects} {owed : ℕ → ℕ} {body : Body} {c : Cell Body} {slot : Slot}
  {d v old depth room n : ℕ} {items items' : List ℕ} {arr grown : Vector ℕ}

/-! ## The entries of a container -/

namespace Body

/-- The references of a container are the one in a slot and those that are left without it. -/
lemma refs_without (hold : body.entry slot = some old) :
    body.refs.Perm (old :: (body.without slot).refs) := by
  cases body with
  | array arr =>
    cases slot with
    | key key => cases hold
    | index index =>
      obtain ⟨hlt, rfl⟩ := List.getElem?_eq_some_iff.mp hold
      exact (List.getElem_cons_eraseIdx_perm hlt).symm
  | dictionary head conn msgid =>
    cases slot with
    | key key => exact (KeyedList.perm_erase hold).append_right _
    | index index => cases hold
  | _ => cases slot <;> cases hold

/-- And with another value in the slot they are that value's and those. -/
lemma refs_stored (hold : body.entry slot = some old) (v : ℕ) :
    (body.stored v slot).refs.Perm (v :: (body.without slot).refs) := by
  cases body with
  | array arr =>
    cases slot with
    | key key => cases hold
    | index index =>
      obtain ⟨hlt, -⟩ := List.getElem?_eq_some_iff.mp hold
      exact List.set_perm_cons_eraseIdx hlt v
  | dictionary head conn msgid =>
    cases slot with
    | key key => exact (KeyedList.perm_replace hold v).append_right _
    | index index => cases hold
  | _ => cases slot <;> cases hold

/-- A slot that there is holds the value that is stored in it. -/
lemma entry_stored (hold : body.entry slot = some old) (v : ℕ) :
    (body.stored v slot).entry slot = some v := by
  cases body with
  | array arr =>
    cases slot with
    | key key => cases hold
    | index index =>
      obtain ⟨hlt, -⟩ := List.getElem?_eq_some_iff.mp hold
      exact List.getElem?_set_self hlt
  | dictionary head conn msgid =>
    cases slot with
    | key key =>
      change KeyedList.find _ head key = some old at hold
      change KeyedList.find _ (KeyedList.replace _ key v head) key = some v
      rw [KeyedList.find_replace KeyedList.lawful_same, if_pos ⟨KeyedList.lawful_same.refl key, by
        rw [hold]
        rfl⟩]
    | index index => cases hold
  | _ => cases slot <;> cases hold

/-- The container is an array with an index, or a dictionary with a key. -/
lemma Takes.cases (htakes : body.Takes slot) :
    (∃ arr index, body = .array arr ∧ slot = .index index) ∨
      ∃ head conn msgid key, body = .dictionary head conn msgid ∧ slot = .key key := by
  cases body with
  | array arr =>
    cases slot with
    | key key => exact htakes.elim
    | index index => exact .inl ⟨arr, index, rfl, rfl⟩
  | dictionary head conn msgid =>
    cases slot with
    | key key => exact .inr ⟨head, conn, msgid, key, rfl, rfl⟩
    | index index => exact htakes.elim
  | _ => cases slot <;> exact htakes.elim

/-- A vector holds fewer elements than `XPC_ARRAY_APPEND`. -/
lemma length_lt_append (harr : arr.WellFormed) : arr.items.length < xpcArrayAppend := by
  have hle := harr.length_le
  rw [xpcArrayAppend]
  rcases harr.room with ⟨hzero, -⟩ | ⟨j, -, hj, hpow, -⟩
  · omega
  · have hpow60 : 2 ^ j ≤ 2 ^ 60 := Nat.pow_le_pow_right Nat.two_pos hj
    omega

/-- A slot that there is is where the value is stored. -/
lemma place_of_entry (htakes : body.Takes slot) (hold : body.entry slot = some old) :
    body.place slot = slot := by
  cases body with
  | array arr =>
    cases slot with
    | key key => cases hold
    | index index =>
      obtain ⟨hlt, -⟩ := List.getElem?_eq_some_iff.mp hold
      have hne : index ≠ xpcArrayAppend := Nat.ne_of_lt (hlt.trans (length_lt_append htakes.1))
      rw [place, if_neg hne]
  | _ => cases slot <;> rfl

end Body

/-- Looking up goes by the entries. -/
lemma getValue_eq : getValue h d slot = ((h.cell d).map Cell.body).bind fun body => body.entry slot := by
  cases slot with
  | key key =>
    unfold getValue xpcDictionaryGetValue
    cases (h.cell d).map Cell.body with
    | none => rfl
    | some body => cases body <;> rfl
  | index index =>
    unfold getValue xpcArrayGetValue
    cases (h.cell d).map Cell.body with
    | none => rfl
    | some body => cases body <;> rfl

/-! ## Replacing an entry -/

/-- Where there is an entry the call is a replacement of one reference by another. -/
lemma setValue_of_entry (hd : h.cell d = some c) (htakes : c.body.Takes slot)
    (hold : c.body.entry slot = some old) :
    setValue depth h d slot v = replace Body.refs depth h d old v (Body.stored v slot) := by
  have hbody : (h.cell d).map Cell.body = some c.body := by rw [hd, Option.map_some]
  have hplace := Body.place_of_entry htakes hold
  revert hbody htakes hold hplace
  generalize c.body = body
  intro htakes hold hbody hplace
  cases body with
  | array arr =>
    cases slot with
    | key key => cases hold
    | index index =>
      change arr.items[index]? = some old at hold
      have hne : index ≠ xpcArrayAppend := by
        obtain ⟨hlt, -⟩ := List.getElem?_eq_some_iff.mp hold
        exact Nat.ne_of_lt (hlt.trans (Body.length_lt_append htakes.1))
      simp only [setValue, xpcArraySetValue, hbody, if_neg hne, hold]
      rfl
  | dictionary head conn msgid =>
    cases slot with
    | key key =>
      change KeyedList.find KeyedList.same head key = some old at hold
      simp only [setValue, xpcDictionarySetValue, hbody, hold]
      rfl
    | index index => cases hold
  | _ => cases slot <;> cases hold

/-! ## New entries -/

/-- A new object is not where one was. -/
lemma fresh_notMem (h : Objects) : h.dom.sup id + 1 ∉ h.dom := by
  intro hmem
  have hle : id (h.dom.sup id + 1) ≤ h.dom.sup id := Finset.le_sup hmem
  exact absurd hle (Nat.not_succ_le_self _)

/-- The null objects of a gap are new, and are referred to once, by the call. -/
lemma fillNulls_spec (hbal : Balanced Body.refs h owed [])
    (hfits : n = 0 ∨ (items.length + n) * sizeofPointer ≤ room) :
    ∃ h' nulls, fillNulls room n h items = some (h', items ++ nulls) ∧ nulls.length = n ∧
      Balanced Body.refs h' (fun x => owed x + nulls.count x) [] ∧ h.dom ⊆ h'.dom ∧
      (∀ x ∈ h.dom, h'.cell x = h.cell x) ∧
      ∀ x c', x ∉ h.dom → h'.cell x = some c' → c'.body = .null := by
  induction n generalizing h owed items with
  | zero =>
    refine ⟨h, [], by simp [fillNulls], rfl, by simpa using hbal, subset_rfl, fun _ _ => rfl, ?_⟩
    exact fun x c' hx hc' => absurd (h.mem_dom x (by simp [hc'])) hx
  | succ n ih =>
    have hroom : (items.length + 1) * sizeofPointer ≤ room := by
      obtain hn | hn := hfits
      · cases hn
      · exact Nat.le_trans (Nat.mul_le_mul_right _ (by omega)) hn
    have hfits' : n = 0 ∨
        ((items ++ [h.dom.sup id + 1]).length + n) * sizeofPointer ≤ room := by
      obtain hn | hn := hfits
      · cases hn
      · right
        rw [List.length_append, List.length_singleton]
        exact Nat.le_trans (Nat.mul_le_mul_right _ (by omega)) hn
    obtain ⟨h₂, nulls, hfill, hlen, hbal₂, hdom₂, hcell₂, hnull₂⟩ :=
      ih (balanced_alloc hbal (fresh_notMem h) (show Body.refs .null = [] from rfl)) hfits'
    have hsub : h.dom ⊆ (h.put (h.dom.sup id + 1) ⟨1, false, Body.null⟩).dom :=
      Finset.subset_insert _ _
    refine ⟨h₂, (h.dom.sup id + 1) :: nulls, ?_, by rw [List.length_cons, hlen], ?_,
      hsub.trans hdom₂, fun x hx => ?_, fun x c' hx hc' => ?_⟩
    · simp only [fillNulls, xpcObjectAlloc, push_eq_ok.mpr ⟨hroom, rfl⟩]
      rw [hfill, List.append_assoc]
      rfl
    · have howed : (fun x => oneMore owed (h.dom.sup id + 1) x + nulls.count x) =
          fun x => owed x + ((h.dom.sup id + 1) :: nulls).count x := by
        funext x
        simp only [oneMore, List.count_cons, beq_iff_eq, eq_comm (a := x)]
        omega
      rwa [howed] at hbal₂
    · have hne : x ≠ h.dom.sup id + 1 := by
        rintro rfl
        exact fresh_notMem h hx
      rw [hcell₂ x (hsub hx), Heap.put_of_ne hne]
    · by_cases hxa : x = h.dom.sup id + 1
      · subst hxa
        rw [hcell₂ _ (Finset.mem_insert_self _ _), Heap.put_same] at hc'
        rw [← Option.some_inj.mp hc']
      · exact hnull₂ x c' (fun hmem => (Finset.mem_insert.mp hmem).elim hxa hx) hc'

/-- The loop stores as many null objects as it was told. -/
lemma fillNulls_length (hfill : fillNulls room n h items = some (g, items')) :
    items'.length = items.length + n := by
  induction n generalizing h items with
  | zero =>
    obtain ⟨-, rfl⟩ := Prod.mk.inj (Option.some_inj.mp hfill)
    rfl
  | succ n ih =>
    simp only [fillNulls, xpcObjectAlloc] at hfill
    split at hfill
    · cases hfill
    · rename_i next hpush
      obtain ⟨-, rfl⟩ := push_eq_ok.mp hpush
      rw [ih hfill, List.length_append, List.length_singleton]
      omega

/-- The end of a call that stores behind the last element, with null objects in the gap. -/
lemma appendItem_spec {nulls : List ℕ}
    (hbal : Balanced Body.refs h (fun x => owed x + nulls.count x) []) (hd : h.cell d = some c)
    (hbody : c.body = .array arr) (halive : h.Alive d) (hv : h.Alive v)
    (hitems : grown.items = arr.items ++ nulls)
    (hroom : (grown.items.length + 1) * sizeofPointer ≤ grown.room) :
    ∃ h', appendItem h d grown v = some h' ∧ Balanced Body.refs h' owed [] ∧ h'.dom = h.dom ∧
      (∀ x, h'.Alive x ↔ h.Alive x) ∧
      h'.object d = some (.array { grown with items := grown.items ++ [v] }, c.immortal) ∧
      ∀ x, x ≠ d → h'.object x = h.object x := by
  have hslots : (Body.refs (.array { grown with items := grown.items ++ [v] })).Perm
      (v :: nulls ++ Body.refs c.body) := by
    simp only [hbody, Body.refs, hitems]
    exact (List.perm_append_singleton v _).trans (List.perm_append_comm.cons v)
  obtain ⟨h', hstore, hrest⟩ := store_adopt
    (f := fun _ => Body.array { grown with items := grown.items ++ [v] }) hbal hd halive hv hslots
    fun _ => rfl
  refine ⟨h', ?_, hrest⟩
  rw [← hstore]
  simp only [appendItem, push_eq_ok.mpr ⟨hroom, rfl⟩]
  rfl

/-- What a call leaves behind that stores. -/
structure Stored (h h' : Objects) (owed : ℕ → ℕ) (d : ℕ) (c : Cell Body) (slot : Slot) (v : ℕ) :
    Prop where
  /-- The counts are right. -/
  balanced : Balanced Body.refs h' owed []
  /-- The slot holds the value. -/
  holds : getValue h' d (c.body.place slot) = some v
  /-- The value is alive. -/
  value : h'.Alive v
  /-- Whatever is kept by something other than the slot is alive. -/
  kept : ∀ x, h.Alive x →
    ¬Doomed Body.refs (h.put d { c with body := c.body.without slot }) owed x → h'.Alive x
  /-- No other object has changed. -/
  other : ∀ x c', x ∈ h.dom → x ≠ d → h'.cell x = some c' → h'.object x = h.object x
  /-- Addresses are not forgotten. -/
  dom : h.dom ⊆ h'.dom
  /-- The container is sound if it was. -/
  sound : c.body.Sound → ∀ c', h'.cell d = some c' → c'.body.Sound
  /-- A new object is sound. -/
  fresh : ∀ x c', x ∉ h.dom → h'.cell x = some c' → c'.body.Sound

/-- The container is sound with another value in a slot. -/
lemma Body.Sound.stored (hs : body.Sound) (v : ℕ) (slot : Slot) : (body.stored v slot).Sound := by
  cases body with
  | array arr =>
    cases slot with
    | key key => exact hs
    | index index =>
      refine ⟨?_, hs.room⟩
      rw [List.length_set]
      exact hs.length_le
  | dictionary head conn msgid =>
    cases slot with
    | key key => exact KeyedList.Distinct.replace hs key v
    | index index => exact hs
  | _ => cases slot <;> exact trivial

/-- **Replacing an entry**, when something else keeps the container and the value. -/
lemma stored_of_entry (hbal : Balanced Body.refs h owed []) (hd : h.cell d = some c)
    (halive : h.Alive d) (htakes : c.body.Takes slot) (hold : c.body.entry slot = some old)
    (hv : h.Alive v)
    (hkeep : ¬Doomed Body.refs (h.put d { c with body := c.body.without slot }) owed d)
    (hkeep' : ¬Doomed Body.refs (h.put d { c with body := c.body.without slot }) owed v) :
    ∃ depth h', setValue depth h d slot v = some h' ∧ Stored h h' owed d c slot v := by
  obtain ⟨depth, h', hrep, hobj, hlive, hbal', hiff, hother, hdom⟩ :=
    replace_spec hbal hd halive (Body.refs_without hold) hv hkeep hkeep' (Body.refs_stored hold v)
  have hbody := Heap.body_of_object hobj
  refine ⟨depth, h', (setValue_of_entry hd htakes hold).trans hrep, hbal', ?_, hlive,
    fun x hx hk => (hiff x).mpr ⟨hx, hk⟩, fun x c' _ hne hc' => hother x c' hne hc',
    hdom ▸ subset_rfl, fun hs c' hc' => ?_, fun x c' hx hc' => ?_⟩
  · rw [getValue_eq, hbody, Option.bind_some, Body.place_of_entry htakes hold]
    exact Body.entry_stored hold v
  · rw [hc', Option.map_some] at hbody
    rw [Option.some_inj.mp hbody]
    exact hs.stored v slot
  · have hne : x ≠ d := by
      rintro rfl
      exact hx (h.mem_dom x (by simp [hd]))
    obtain ⟨c₀, hc₀, -⟩ := Heap.cell_of_object (hother x c' hne hc').symm hc'
    exact absurd (h.mem_dom x (by simp [hc₀])) hx

/-- What a call leaves behind that has stored in a new slot. -/
structure Pushed (h h' : Objects) (owed : ℕ → ℕ) (d : ℕ) (c : Cell Body) (slot : Slot) (v : ℕ) :
    Prop where
  /-- The counts are right. -/
  balanced : Balanced Body.refs h' owed []
  /-- The slot holds the value. -/
  holds : getValue h' d (c.body.place slot) = some v
  /-- Whatever was alive still is. -/
  kept : ∀ x, h.Alive x → h'.Alive x
  /-- No other object has changed. -/
  other : ∀ x ∈ h.dom, x ≠ d → h'.object x = h.object x
  /-- Addresses are not forgotten. -/
  dom : h.dom ⊆ h'.dom
  /-- The container is sound if it was. -/
  sound : c.body.Sound → ∀ c', h'.cell d = some c' → c'.body.Sound
  /-- A new object is sound. -/
  fresh : ∀ x c', x ∉ h.dom → h'.cell x = some c' → c'.body.Sound

/-- It has stored the value. -/
lemma Pushed.stored (hp : Pushed h h' owed d c slot v) (hv : h.Alive v) :
    Stored h h' owed d c slot v :=
  ⟨hp.balanced, hp.holds, hp.kept v hv, fun x hx _ => hp.kept x hx,
    fun x _ hx hne _ => hp.other x hx hne, hp.dom, hp.sound, hp.fresh⟩

/-- **A new key.** -/
lemma pushed_key {head : List (CString × ℕ)} {conn : Option ℕ} {msgid : ℕ} {key : CString}
    (hbal : Balanced Body.refs h owed []) (hd : h.cell d = some c) (halive : h.Alive d)
    (hbody : c.body = .dictionary head conn msgid)
    (hnew : KeyedList.find KeyedList.same head key = none) (hv : h.Alive v) :
    ∃ h', (∀ depth, setValue depth h d (.key key) v = some h') ∧
      Pushed h h' owed d c (.key key) v ∧
      h'.object d = some (.dictionary ((key, v) :: head) conn msgid, c.immortal) := by
  have hslots : (Body.refs (Body.pushKv key v c.body)).Perm (v :: [] ++ c.body.refs) := by
    simp [hbody, Body.pushKv, Body.refs]
  obtain ⟨h', hstore, hbal', hdom, hlive, hobj, hother⟩ :=
    store_adopt (f := Body.pushKv key v) hbal hd halive hv hslots fun _ => rfl
  have hdict : (h.cell d).map Cell.body = some (.dictionary head conn msgid) := by
    rw [hd, Option.map_some, hbody]
  rw [hbody] at hobj
  have hbody' := Heap.body_of_object hobj
  refine ⟨h', fun depth => ?_, ⟨hbal', ?_, fun x hx => (hlive x).mpr hx,
    fun x _ hne => hother x hne, hdom ▸ subset_rfl, fun hs c' hc' => ?_, fun x c' hx hc' => ?_⟩,
    hobj⟩
  · rw [← hstore]
    simp only [setValue, xpcDictionarySetValue, hdict, hnew]
    rfl
  · rw [getValue_eq, hbody', Option.bind_some, hbody]
    change KeyedList.find KeyedList.same ((key, v) :: head) key = some v
    rw [KeyedList.find_cons, if_pos (KeyedList.lawful_same.refl key)]
  · rw [hc', Option.map_some] at hbody'
    rw [Option.some_inj.mp hbody']
    rw [hbody] at hs
    exact KeyedList.Distinct.cons KeyedList.lawful_same hs hnew v
  · exact absurd (hdom ▸ h'.mem_dom x (by simp [hc'])) hx

/-- **A new element**, behind the last one or further on. -/
lemma pushed_item {index : ℕ} (hbal : Balanced Body.refs h owed [])
    (hd : h.cell d = some c) (halive : h.Alive d) (hbody : c.body = .array arr)
    (htakes : c.body.Takes (.index index)) (hnew : arr.items[index]? = none)
    (hgrows : c.body.Grows (.index index)) (hv : h.Alive v) :
    ∃ h' nulls arr', (∀ depth, 64 ≤ depth → setValue depth h d (.index index) v = some h') ∧
      Pushed h h' owed d c (.index index) v ∧
      h'.object d = some (.array arr', c.immortal) ∧ arr'.items = arr.items ++ nulls ++ [v] ∧
      (index = xpcArrayAppend → nulls = []) := by
  rw [hbody] at htakes
  obtain ⟨harr, hindex⟩ := htakes
  have hge : arr.items.length ≤ index := List.getElem?_eq_none_iff.mp hnew
  have hfull := Body.length_lt_append harr
  -- The place, which is the index or behind the last element.
  obtain ⟨place, hplace⟩ : ∃ p, p = if index = xpcArrayAppend then arr.items.length else index :=
    ⟨_, rfl⟩
  have hslot : c.body.place (.index index) = .index place := by rw [hbody, hplace]; rfl
  have hsmall : place < 2 ^ 60 := hgrows place hslot
  have hle : arr.items.length ≤ place := by
    rw [hplace]
    split_ifs <;> omega
  obtain ⟨grown, hgrown, hroom⟩ : ∃ g, (∀ fuel, 64 ≤ fuel →
      ensureCap fuel memory arr (place + 1) = some g) ∧ (place + 1) * sizeofPointer ≤ g.room :=
    ensureCap_of_fits harr (.inr ⟨hsmall, rfl⟩)
  obtain ⟨hitems, -⟩ := ensureCap_cases harr (hgrown 64 (le_refl 64))
  have hlast : (grown.items.length + (place - arr.items.length)) * sizeofPointer ≤ grown.room := by
    rw [hitems]
    exact Nat.le_trans (Nat.mul_le_mul_right _ (by omega)) hroom
  obtain ⟨h₁, nulls, hfill, hlen, hbal₁, hdom₁, hcell₁, hnull₁⟩ := fillNulls_spec hbal (.inr hlast)
  have hmem : ∀ {x}, h.Alive x → x ∈ h.dom := fun ⟨e, he, _⟩ => h.mem_dom _ (by simp [he])
  have hd₁ : h₁.cell d = some c := by rw [hcell₁ d (hmem halive), hd]
  have hlive₁ : ∀ {x}, h.Alive x → h₁.Alive x := fun hx =>
    (Heap.alive_congr (hcell₁ _ (hmem hx))).mpr hx
  obtain ⟨filled, hfilled⟩ : ∃ f : Vector ℕ, f = { grown with items := grown.items ++ nulls } :=
    ⟨_, rfl⟩
  have hfitems : filled.items = arr.items ++ nulls := by rw [hfilled, hitems]
  have hlength : filled.items.length = place := by
    rw [hfitems, List.length_append, hlen]
    omega
  have hfroom : (filled.items.length + 1) * sizeofPointer ≤ filled.room := by
    rw [hlength, hfilled]
    exact hroom
  obtain ⟨h', hstore, hbal', hdom', hlive', hobj, hother'⟩ :=
    appendItem_spec hbal₁ hd₁ hbody (hlive₁ halive) (hlive₁ hv) hfitems hfroom
  have hbody' := Heap.body_of_object hobj
  have hcall : ∀ depth, 64 ≤ depth → setValue depth h d (.index index) v = some h' := by
    intro depth hdepth
    have hcast : (h.cell d).map Cell.body = some (.array arr) := by rw [hd, Option.map_some, hbody]
    simp only [setValue, xpcArraySetValue, hcast]
    by_cases happend : index = xpcArrayAppend
    · rw [if_pos happend] at hplace ⊢
      subst hplace
      rw [Nat.sub_self] at hlen hfill
      obtain rfl := List.length_eq_zero_iff.mp hlen
      obtain ⟨rfl, -⟩ := Prod.mk.inj (Option.some_inj.mp hfill)
      have hsize := sizeAdd_of_lt (show arr.items.length + 1 < 2 ^ 64 by omega)
      simp only [xpcArrayAppendValue, hcast, hsize, hgrown depth hdepth, Option.bind_some]
      simpa [hfilled] using hstore
    · rw [if_neg happend] at hplace ⊢
      subst hplace
      have hsize := sizeAdd_of_lt (show place + 1 < 2 ^ 64 by omega)
      simp only [hnew, hsize, hgrown depth hdepth, Option.bind_some, hfill]
      rw [← hfilled]
      exact hstore
  refine ⟨h', nulls, { filled with items := filled.items ++ [v] }, hcall,
    ⟨hbal', ?_, fun x hx => (hlive' x).mpr (hlive₁ hx), fun x hx hne => ?_, hdom' ▸ hdom₁,
      fun _ c' hc' => ?_, fun x c' hx hc' => ?_⟩, hobj, by rw [hfitems], fun happend => ?_⟩
  · rw [getValue_eq, hbody', Option.bind_some, hslot]
    change (filled.items ++ [v])[place]? = some v
    rw [List.getElem?_append_right (Nat.le_of_eq hlength), hlength, Nat.sub_self]
    rfl
  · rw [hother' x hne, Heap.object, Heap.object, hcell₁ x hx]
  · rw [hc', Option.map_some] at hbody'
    rw [Option.some_inj.mp hbody']
    have hwf : Vector.WellFormed { grown with items := filled.items ++ [v] } :=
      harr.ensureCap (hgrown 64 (le_refl 64)) hroom
        (by rw [List.length_append, hlength, List.length_singleton])
    rw [hfilled]
    rw [hfilled] at hwf
    exact hwf
  · have hne : x ≠ d := by
      rintro rfl
      exact hx (hmem halive)
    obtain ⟨e, he, hebody, -⟩ := Heap.cell_of_object (hother' x hne).symm hc'
    rw [← hebody, hnull₁ x e hx he]
    trivial
  · rw [if_pos happend] at hplace
    rw [hplace, Nat.sub_self] at hlen
    exact List.length_eq_zero_iff.mp hlen

/-! ## Every call -/

/-- The depth does not matter for the result of a replacement. -/
lemma replace_congr {f : Body → Body} {m : ℕ} (hn : replace Body.refs n h d old v f = some g)
    (hm : replace Body.refs m h d old v f = some h') : g = h' := by
  obtain ⟨g₁, hrel, hrest⟩ := Option.bind_eq_some_iff.mp hn
  obtain ⟨g₂, hrel₂, hrest₂⟩ := Option.bind_eq_some_iff.mp hm
  obtain rfl := release_congr hrel hrel₂
  exact Option.some_inj.mp (hrest.symm.trans hrest₂)

/-- Nor does the number of rounds for the growth. -/
lemma ensureCap_congr {env : Allocator} {need m : ℕ} {r r' : Vector ℕ}
    (hn : ensureCap n env arr need = some r) (hm : ensureCap m env arr need = some r') : r = r' := by
  rw [ensureCap] at hn hm
  split at hn
  · rename_i hle
    rw [if_pos hle] at hm
    exact Option.some_inj.mp (hn.symm.trans hm)
  · rename_i hle
    rw [if_neg hle] at hm
    obtain ⟨k, hloop, rfl⟩ := Option.map_eq_some_iff.mp hn
    obtain ⟨k', hloop', rfl⟩ := Option.map_eq_some_iff.mp hm
    rw [growLoop_unique hloop hloop']

/-- Nor for the result of a call. -/
lemma setValue_congr {m : ℕ} (hn : setValue n h d slot v = some g)
    (hm : setValue m h d slot v = some h') : g = h' := by
  cases slot with
  | key key =>
    simp only [setValue, xpcDictionarySetValue] at hn hm
    split at hn
    · rename_i head conn msgid hbody
      split at hn
      · rename_i old hold
        simp only [hbody, hold] at hm
        exact replace_congr hn hm
      · rename_i hnone
        simp only [hbody, hnone] at hm
        exact Option.some_inj.mp (hn.symm.trans hm)
    · cases hn
  | index index =>
    simp only [setValue, xpcArraySetValue] at hn hm
    split at hn
    · rename_i arr hbody
      simp only [hbody] at hm
      split_ifs at hn hm with happend
      · simp only [xpcArrayAppendValue, hbody] at hn hm
        obtain ⟨r, hr, hrest⟩ := Option.bind_eq_some_iff.mp hn
        obtain ⟨r', hr', hrest'⟩ := Option.bind_eq_some_iff.mp hm
        obtain rfl := ensureCap_congr hr hr'
        exact Option.some_inj.mp (hrest.symm.trans hrest')
      · split at hn
        · rename_i hnone
          simp only [hnone] at hm
          obtain ⟨r, hr, hrest⟩ := Option.bind_eq_some_iff.mp hn
          obtain ⟨r', hr', hrest'⟩ := Option.bind_eq_some_iff.mp hm
          obtain rfl := ensureCap_congr hr hr'
          exact Option.some_inj.mp (hrest.symm.trans hrest')
        · rename_i old hold
          simp only [hold] at hm
          exact replace_congr hn hm
    · cases hn

/-- A call that stores a new element has grown the vector. -/
lemma grows_of_newItem {index : ℕ} (hd : h.cell d = some c) (hbody : c.body = .array arr)
    (htakes : c.body.Takes (.index index)) (hnew : arr.items[index]? = none)
    (hcall : setValue depth h d (.index index) v = some h') : c.body.Grows (.index index) := by
  rw [hbody] at htakes ⊢
  obtain ⟨harr, hindex⟩ := htakes
  have hge : arr.items.length ≤ index := List.getElem?_eq_none_iff.mp hnew
  have hfull := Body.length_lt_append harr
  have hcap : arr.cap ≤ 2 ^ 60 := by
    rcases harr.room with ⟨hzero, -⟩ | ⟨j, -, hj, hpow, -⟩
    · omega
    · exact hpow ▸ Nat.pow_le_pow_right Nat.two_pos hj
  -- A store at the end of the vector that has grown shows that it has.
  have hstore : ∀ (g : Objects) (grown : Vector ℕ) (items : List ℕ) (place : ℕ),
      ensureCap depth memory arr (place + 1) = some grown → items.length = place →
      appendItem g d { grown with items } v = some h' → place < 2 ^ 60 := by
    intro g grown items place hgrown hlen happend
    obtain ⟨g₁, -, hpush⟩ := Option.bind_eq_some_iff.mp happend
    split at hpush
    · cases hpush
    · rename_i _ hok
      obtain ⟨hroom, -⟩ := push_eq_ok.mp hok
      rw [hlen] at hroom
      rcases (ensureCap_room harr).mp ⟨depth, grown, hgrown, hroom⟩ with hlt | ⟨hlt, -⟩
      · omega
      · exact hlt
  intro place hplace
  have hcast : (h.cell d).map Cell.body = some (.array arr) := by rw [hd, Option.map_some, hbody]
  simp only [setValue, xpcArraySetValue, hcast] at hcall
  obtain rfl := Slot.index.inj hplace
  split_ifs at hcall ⊢ with happend
  · have hsize := sizeAdd_of_lt (show arr.items.length + 1 < 2 ^ 64 by
      rw [xpcArrayAppend] at hfull
      omega)
    simp only [xpcArrayAppendValue, hcast, hsize] at hcall
    obtain ⟨grown, hgrown, hrest⟩ := Option.bind_eq_some_iff.mp hcall
    obtain ⟨hitems, -⟩ := ensureCap_cases harr hgrown
    exact hstore h grown grown.items _ hgrown (by rw [hitems]) hrest
  · have hsize := sizeAdd_of_lt (show index + 1 < 2 ^ 64 by
      rw [xpcArrayAppend] at happend
      omega)
    simp only [hnew, hsize] at hcall
    obtain ⟨grown, hgrown, hrest⟩ := Option.bind_eq_some_iff.mp hcall
    obtain ⟨⟨g, items⟩, hfill, happend⟩ := Option.bind_eq_some_iff.mp hrest
    obtain ⟨hitems, -⟩ := ensureCap_cases harr hgrown
    refine hstore g grown items _ hgrown ?_ happend
    rw [fillNulls_length hfill, hitems]
    omega

/-- A call returns with the value stored if the slot is a new one that the container can have, or if
something else keeps the container and the value. -/
theorem stored_of_canStore (hbal : Balanced Body.refs h owed []) (hd : h.cell d = some c)
    (halive : h.Alive d) (htakes : c.body.Takes slot) (hv : h.Alive v)
    (hcan : CanStore h owed d slot v) :
    ∃ depth h', setValue depth h d slot v = some h' ∧ Stored h h' owed d c slot v := by
  obtain ⟨c', hc', hcase⟩ := hcan
  obtain rfl := Option.some_inj.mp (hd.symm.trans hc')
  rcases hcase with ⟨hnone, hgrows⟩ | ⟨hsome, hkeep, hkeep'⟩
  · obtain ⟨arr, index, hbody, rfl⟩ | ⟨head, conn, msgid, key, hbody, rfl⟩ := htakes.cases
    · rw [hbody] at hnone
      obtain ⟨h', -, -, hcall, hpushed, -⟩ := pushed_item hbal hd halive hbody htakes hnone hgrows hv
      exact ⟨64, h', hcall 64 (le_refl 64), hpushed.stored hv⟩
    · rw [hbody] at hnone
      obtain ⟨h', hcall, hpushed, -⟩ := pushed_key hbal hd halive hbody hnone hv
      exact ⟨0, h', hcall 0, hpushed.stored hv⟩
  · obtain ⟨old, hold⟩ := Option.isSome_iff_exists.mp hsome
    exact stored_of_entry hbal hd halive htakes hold hv hkeep hkeep'

/-- **What a call does** that returns: the slot is new or something else keeps the container and the
value, and the value is stored. -/
theorem setValue_spec (hbal : Balanced Body.refs h owed []) (hd : h.cell d = some c)
    (halive : h.Alive d) (htakes : c.body.Takes slot) (hv : h.Alive v)
    (hcall : setValue depth h d slot v = some h') :
    CanStore h owed d slot v ∧ Stored h h' owed d c slot v := by
  have hcan : CanStore h owed d slot v := by
    refine ⟨c, hd, ?_⟩
    cases hold : c.body.entry slot with
    | some old =>
      rw [setValue_of_entry hd htakes hold] at hcall
      have hnot := not_doomed_of_replace hbal hd halive (Body.refs_without hold) hv hcall
      exact .inr ⟨rfl, hnot⟩
    | none =>
      left
      refine ⟨rfl, ?_⟩
      obtain ⟨arr, index, hbody, rfl⟩ | ⟨head, conn, msgid, key, hbody, rfl⟩ := htakes.cases
      · rw [hbody] at hold
        exact grows_of_newItem hd hbody htakes hold hcall
      · intro index hindex
        rw [hbody] at hindex
        cases hindex
  obtain ⟨m, g, hcall', hstored⟩ := stored_of_canStore hbal hd halive htakes hv hcan
  obtain rfl := setValue_congr hcall hcall'
  exact ⟨hcan, hstored⟩

/-- **When the new value is not freed.** For a live container and a live value, the call returns with
the slot holding the value and the value alive exactly when the slot is a new one that the container
can have, or when something other than the slot keeps the container and the value.

**Proof sketch.** The release of the old value frees exactly what only the slot kept. If that is the
container or the value, then the call goes on with an object that is no longer there. -/
theorem setValue_iff (hbal : Balanced Body.refs h owed []) (hd : h.cell d = some c)
    (halive : h.Alive d) (htakes : c.body.Takes slot) (hv : h.Alive v) :
    (∃ depth h', setValue depth h d slot v = some h' ∧
      getValue h' d (c.body.place slot) = some v ∧ h'.Alive v) ↔ CanStore h owed d slot v := by
  constructor
  · rintro ⟨depth, h', hcall, -⟩
    exact (setValue_spec hbal hd halive htakes hv hcall).1
  · intro hcan
    obtain ⟨depth, h', hcall, hstored⟩ := stored_of_canStore hbal hd halive htakes hv hcan
    exact ⟨depth, h', hcall, hstored.holds, hstored.value⟩

/-! ## A dictionary with one value -/

/-- The key `"k"`. -/
def sampleKey : CString := .ofBytes [107]

/-- A dictionary with a value that it keeps alone, and a value that is kept from outside. -/
def sample : List (ℕ × Cell Body) :=
  [(1, ⟨1, false, .dictionary [(sampleKey, 2)] none 0⟩), (2, ⟨1, false, .bool true⟩),
    (3, ⟨1, false, .null⟩)]

/-- Its counts are right. -/
lemma balanced_sample :
    Balanced Body.refs (Heap.ofList sample) (fun x => [1, 3].count x) [] :=
  balanced_ofList (by decide +kernel) (by decide +kernel) (by decide +kernel)

/-- The dictionary. -/
lemma sample_cell : (Heap.ofList sample).cell 1 =
    some ⟨1, false, .dictionary [(sampleKey, 2)] none 0⟩ := rfl

/-- The value that is kept from outside replaces the other. -/
theorem setValue_iff_sample :
    (∃ depth h', setValue depth (Heap.ofList sample) 1 (.key sampleKey) 3 = some h' ∧
      getValue h' 1 (.key sampleKey) = some 3 ∧ h'.Alive 3) ↔
      CanStore (Heap.ofList sample) (fun x => [1, 3].count x) 1 (.key sampleKey) 3 := by
  have htakes : (Body.dictionary [(sampleKey, 2)] none 0).Takes (.key sampleKey) := trivial
  have halive : (Heap.ofList sample).Alive 1 := by decide +kernel
  have hv : (Heap.ofList sample).Alive 3 := by decide +kernel
  exact setValue_iff balanced_sample sample_cell halive htakes hv

/-- **Setting a key to the value it has** is not safe: the dictionary keeps the value alone, so it is
freed before it is retained. -/
theorem not_stored_sameValue :
    ¬ ∀ (h : Objects) (owed : ℕ → ℕ) (d : ℕ) (c : Cell Body) (slot : Slot) (v : ℕ),
      Balanced Body.refs h owed [] → h.cell d = some c → h.Alive d → c.body.Takes slot →
      h.Alive v → ∃ depth h', setValue depth h d slot v = some h' ∧
        getValue h' d (c.body.place slot) = some v ∧ h'.Alive v := by
  intro hall
  have htakes : (Body.dictionary [(sampleKey, 2)] none 0).Takes (.key sampleKey) := trivial
  have halive : (Heap.ofList sample).Alive 1 := by decide +kernel
  have hv : (Heap.ofList sample).Alive 2 := by decide +kernel
  obtain ⟨depth, h', hcall, -⟩ :=
    hall _ _ 1 _ (.key sampleKey) 2 balanced_sample sample_cell halive htakes hv
  obtain ⟨⟨c, hc, hcase⟩, -⟩ := setValue_spec balanced_sample sample_cell halive htakes hv hcall
  obtain rfl := Option.some_inj.mp ((sample_cell).symm.trans hc)
  rcases hcase with ⟨hnone, -⟩ | ⟨-, -, hkeep⟩
  · revert hnone
    decide +kernel
  · -- Without the entry nothing refers to the value.
    refine hkeep (.intro 2 (by decide +kernel) (by decide +kernel) fun y hy => ?_)
    exact absurd (Heap.inDegree_pos hy) (by decide +kernel)

end

end Asteros.Xpc.Graph
