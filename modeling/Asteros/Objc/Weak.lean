import Asteros.Lib.Transition
import Asteros.Lib.Unordered

set_option autoImplicit false

/-!
# Weak references

The weak references of `arc.c`: a table has, for each object that is weakly referenced, the list of
the locations that hold it, so that they can be set to nil when the object goes. A location leaves the
list of an object when it is stored to, but the object stays in the table, with an empty list, until it
is deallocated; when the table is full of such objects, a location is not listed any more.

## Main definitions

* `storeWeak` and its relatives — the entry points.
* `weakClearObject` — what happens when an object is deallocated.
* `Zeroing` — the table is true to the locations.
* `HasRoom` — there is an entry for what is stored, or room for one.

## Main results

* `registers_store` — what storing to a location does to the table.
* `zeroing` — the table is true to the locations as long as there is room.
-/

namespace Asteros.Objc

open KeyedList Transition Unordered

variable {Obj Loc : Type} [DecidableEq Obj] [DecidableEq Loc]

/-! ## The implementation -/

/-- `MAX_WEAK_OWNERS`. -/
def maxWeakOwners : ℕ := 1024

/-- `g_weak_owners`: objects with their slots. -/
abbrev WeakOwners (Obj Loc : Type) := List (Obj × List Loc)

/-- `weak_owner_add_slot`. -/
def weakOwnerAddSlot (owners : WeakOwners Obj Loc) (obj : Obj) (slot : Loc) :
    WeakOwners Obj Loc :=
  match find same owners obj with
  | some slots => replace same obj (slots ++ [slot]) owners
  | none => if owners.length < maxWeakOwners then owners ++ [(obj, [slot])] else owners

/-- The loop of `weak_owner_remove_slot`. -/
def removeSlot (slots : List Loc) (slot : Loc) : List Loc :=
  match slots.idxOf? slot with
  | some i => swapRemove slots i
  | none => slots

/-- `weak_owner_remove_slot`. -/
def weakOwnerRemoveSlot (owners : WeakOwners Obj Loc) (obj : Obj) (slot : Loc) :
    WeakOwners Obj Loc :=
  match find same owners obj with
  | some slots => replace same obj (removeSlot slots slot) owners
  | none => owners

/-- The table and what is in the locations; `none` is nil. -/
structure WeakHeap (Obj Loc : Type) where
  owners : WeakOwners Obj Loc
  mem : Loc → Option Obj

/-- `objc_storeWeak` takes a location out of the list of the object it holds. -/
def removeOld (owners : WeakOwners Obj Loc) (location : Loc) : Option Obj → WeakOwners Obj Loc
  | some old => weakOwnerRemoveSlot owners old location
  | none => owners

/-- And puts it into the list of the one it will hold. -/
def addNew (owners : WeakOwners Obj Loc) (location : Loc) : Option Obj → WeakOwners Obj Loc
  | some value => weakOwnerAddSlot owners value location
  | none => owners

/-- `objc_storeWeak`. -/
def storeWeak (h : WeakHeap Obj Loc) (location : Loc) (value : Option Obj) : WeakHeap Obj Loc where
  owners := addNew (removeOld h.owners location (h.mem location)) location value
  mem := Function.update h.mem location value

/-- `objc_initWeak`. -/
def initWeak (h : WeakHeap Obj Loc) (location : Loc) (value : Option Obj) : WeakHeap Obj Loc :=
  storeWeak { h with mem := Function.update h.mem location none } location value

/-- `objc_destroyWeak`. -/
def destroyWeak (h : WeakHeap Obj Loc) (location : Loc) : WeakHeap Obj Loc :=
  storeWeak h location none

/-- `objc_copyWeak`. -/
def copyWeak (h : WeakHeap Obj Loc) (dest src : Loc) : WeakHeap Obj Loc :=
  initWeak h dest (h.mem src)

/-- `objc_moveWeak`. -/
def moveWeak (h : WeakHeap Obj Loc) (dest src : Loc) : WeakHeap Obj Loc :=
  destroyWeak (initWeak h dest (h.mem src)) src

/-- `objc_weak_clear_object`, which `_objc_rootDealloc` calls. -/
def weakClearObject (h : WeakHeap Obj Loc) (obj : Obj) : WeakHeap Obj Loc :=
  match find same h.owners obj with
  | none => h
  | some slots =>
    { owners := swapErase same obj h.owners
      mem := slots.foldl (fun mem slot => Function.update mem slot none) h.mem }

/-! ## Runs -/

/-- The heap, and which locations are live: initialised, and not destroyed since. -/
structure WeakState (Obj Loc : Type) where
  heap : WeakHeap Obj Loc
  live : Loc → Bool

/-- What a program does with weak references, and with the memory of locations that are not live. -/
inductive WeakOp (Obj Loc : Type) where
  | initWeak (location : Loc) (value : Option Obj)
  | storeWeak (location : Loc) (value : Option Obj)
  | copyWeak (dest src : Loc)
  | moveWeak (dest src : Loc)
  | destroyWeak (location : Loc)
  | dealloc (obj : Obj)
  | reuse (location : Loc) (value : Option Obj)

/-- One step. A location is not moved to itself, and memory is not used for something else while a
location in it is live. -/
def weakStep (s : WeakState Obj Loc) : WeakOp Obj Loc → Option (WeakState Obj Loc)
  | .initWeak location value =>
    some ⟨initWeak s.heap location value, Function.update s.live location true⟩
  | .storeWeak location value =>
    some ⟨storeWeak s.heap location value, Function.update s.live location true⟩
  | .copyWeak dest src => some ⟨copyWeak s.heap dest src, Function.update s.live dest true⟩
  | .moveWeak dest src =>
    if dest = src then none
    else some ⟨moveWeak s.heap dest src,
      Function.update (Function.update s.live dest true) src false⟩
  | .destroyWeak location =>
    some ⟨destroyWeak s.heap location, Function.update s.live location false⟩
  | .dealloc obj => some { s with heap := weakClearObject s.heap obj }
  | .reuse location value =>
    if s.live location then none
    else some { s with heap := { s.heap with mem := Function.update s.heap.mem location value } }

/-- The start: nothing is live, whatever is in memory. -/
def WeakState.start (mem : Loc → Option Obj) : WeakState Obj Loc := ⟨⟨[], mem⟩, fun _ => false⟩

/-- A live location that holds an object. -/
def WeakState.Holds (s : WeakState Obj Loc) (l : Loc) (o : Obj) : Prop :=
  s.live l = true ∧ s.heap.mem l = some o

/-- **The table is true to the locations**, and if an object is deallocated now, the locations that
hold it are set to nil and no others are written. -/
structure Zeroing (s : WeakState Obj Loc) : Prop where
  distinct : (s.heap.owners.map Prod.fst).Nodup
  registered : ∀ l o, s.Holds l o → ∃ slots, (o, slots) ∈ s.heap.owners ∧ slots.count l = 1
  clean : ∀ o slots, (o, slots) ∈ s.heap.owners → ∀ l ∈ slots, s.Holds l o
  cleared : ∀ o l, (s.Holds l o → (weakClearObject s.heap o).mem l = none) ∧
    (¬s.Holds l o → (weakClearObject s.heap o).mem l = s.heap.mem l)

/-- There is an entry for an object, or room for one. -/
def HasRoom (owners : WeakOwners Obj Loc) (value : Option Obj) : Prop :=
  ∀ o ∈ value, (find same owners o).isSome ∨ owners.length < maxWeakOwners

/-- A location that is initialised does not hold an object already. -/
def Unused (s : WeakState Obj Loc) (l : Loc) : Prop := ∀ o, ¬s.Holds l o

/-- **There is room for what is stored**, and only unused locations are initialised. -/
def StoresWell (s : WeakState Obj Loc) : WeakOp Obj Loc → Prop
  | .initWeak location value => Unused s location ∧ HasRoom s.heap.owners value
  | .storeWeak _ value => HasRoom s.heap.owners value
  | .copyWeak dest src => Unused s dest ∧ HasRoom s.heap.owners (s.heap.mem src)
  | .moveWeak dest src => Unused s dest ∧ HasRoom s.heap.owners (s.heap.mem src)
  | _ => True

/-! ## The table -/

/-- The slots of an object. -/
def slotsOf (owners : WeakOwners Obj Loc) (o : Obj) : List Loc := (find same owners o).getD []

/-- **The table registers a relation** between locations and objects: each slot once. -/
structure Registers (owners : WeakOwners Obj Loc) (holds : Loc → Obj → Prop) : Prop where
  distinct : Distinct same owners
  nodup : ∀ o, (slotsOf owners o).Nodup
  mem : ∀ o l, l ∈ slotsOf owners o ↔ holds l o

omit [DecidableEq Loc] in
/-- What is found after a replacement. -/
lemma slotsOf_replace {owners : WeakOwners Obj Loc} {o : Obj} {slots : List Loc}
    (h : find same owners o = some slots) (slots' : List Loc) (o' : Obj) :
    slotsOf (replace same o slots' owners) o' = if o = o' then slots' else slotsOf owners o' := by
  unfold slotsOf
  rw [find_replace lawful_same, Option.isSome_of_eq_some h]
  by_cases ho : o = o'
  · simp [same, ho]
  · simp [same, ho]

omit [DecidableEq Loc] in
/-- The slots after one was added. -/
lemma slotsOf_add {owners : WeakOwners Obj Loc} {o : Obj} (hroom : HasRoom owners (some o))
    (l : Loc) (o' : Obj) : slotsOf (weakOwnerAddSlot owners o l) o' =
      if o = o' then slotsOf owners o ++ [l] else slotsOf owners o' := by
  unfold weakOwnerAddSlot
  cases hfound : find same owners o with
  | some slots =>
    rw [slotsOf_replace hfound]
    simp [slotsOf, hfound]
  | none =>
    have hlt : owners.length < maxWeakOwners := by
      rcases hroom o rfl with hsome | hlt
      · rw [hfound] at hsome
        cases hsome
      · exact hlt
    dsimp only
    rw [if_pos hlt]
    unfold slotsOf
    rw [find_append, find_cons]
    by_cases ho : o = o'
    · subst ho
      simp [hfound, same]
    · simp [same, ho, find]

omit [DecidableEq Obj] in
/-- What is left of a list of slots. -/
lemma removeSlot_perm (slots : List Loc) (l : Loc) : (removeSlot slots l).Perm (slots.erase l) := by
  rw [removeSlot, List.erase_eq_eraseIdx]
  cases hfound : slots.idxOf? l with
  | none => exact List.Perm.refl _
  | some i =>
    obtain ⟨hi, -⟩ := List.findIdx?_eq_some_iff_getElem.mp hfound
    exact swapRemove_perm hi

/-- The slots after one was removed. -/
lemma slotsOf_remove (owners : WeakOwners Obj Loc) (o : Obj) (l : Loc) (o' : Obj) :
    (slotsOf (weakOwnerRemoveSlot owners o l) o').Perm
      (if o = o' then (slotsOf owners o).erase l else slotsOf owners o') := by
  unfold weakOwnerRemoveSlot
  cases hfound : find same owners o with
  | some slots =>
    rw [slotsOf_replace hfound]
    by_cases ho : o = o'
    · rw [if_pos ho, if_pos ho]
      simpa [slotsOf, hfound] using removeSlot_perm slots l
    · rw [if_neg ho, if_neg ho]
  | none =>
    by_cases ho : o = o'
    · subst ho
      simp [slotsOf, hfound]
    · rw [if_neg ho]

/-- Removing a slot neither adds nor takes away entries. -/
lemma hasRoom_remove {owners : WeakOwners Obj Loc} {value : Option Obj}
    (h : HasRoom owners value) (o : Obj) (l : Loc) :
    HasRoom (weakOwnerRemoveSlot owners o l) value := by
  intro v hv
  unfold weakOwnerRemoveSlot
  cases hfound : find same owners o with
  | none => exact h v hv
  | some slots =>
    dsimp only
    rw [length_replace, find_replace lawful_same]
    refine (h v hv).imp_left fun hsome => ?_
    split_ifs
    · rfl
    · exact hsome

/-- What is removed is not registered any more. -/
lemma Registers.remove {owners : WeakOwners Obj Loc} {holds : Loc → Obj → Prop}
    (h : Registers owners holds) {o : Obj} {l : Loc} (hold : ∀ o', holds l o' → o' = o) :
    Registers (weakOwnerRemoveSlot owners o l) fun l' o' => l' ≠ l ∧ holds l' o' := by
  refine ⟨?_, fun o' => ?_, fun o' l' => ?_⟩
  · unfold weakOwnerRemoveSlot
    split
    · exact h.distinct.replace _ _
    · exact h.distinct
  · refine (slotsOf_remove owners o l o').nodup_iff.mpr ?_
    split_ifs
    · exact (h.nodup o).erase l
    · exact h.nodup o'
  · rw [(slotsOf_remove owners o l o').mem_iff]
    split_ifs with ho
    · subst ho
      rw [(h.nodup o).mem_erase_iff, h.mem]
    · rw [h.mem]
      refine ⟨fun hl' => ⟨?_, hl'⟩, fun hl' => hl'.2⟩
      rintro rfl
      exact ho (hold o' hl').symm

omit [DecidableEq Loc] in
/-- What is added is registered. -/
lemma Registers.add {owners : WeakOwners Obj Loc} {holds : Loc → Obj → Prop}
    (h : Registers owners holds) {v : Obj} {l : Loc} (hroom : HasRoom owners (some v))
    (hnew : ¬holds l v) :
    Registers (weakOwnerAddSlot owners v l) fun l' o' => l' = l ∧ o' = v ∨ holds l' o' := by
  refine ⟨?_, fun o' => ?_, fun o' l' => ?_⟩
  · unfold weakOwnerAddSlot
    split
    · exact h.distinct.replace _ _
    · next hnone =>
      split_ifs
      · exact h.distinct.concat hnone _
      · exact h.distinct
  · rw [slotsOf_add hroom]
    split_ifs
    · refine (List.nodup_append_comm.mp ?_)
      exact List.nodup_cons.mpr ⟨fun hl => hnew ((h.mem v l).mp hl), h.nodup v⟩
    · exact h.nodup o'
  · rw [slotsOf_add hroom]
    split_ifs with ho
    · subst ho
      rw [List.mem_append, List.mem_singleton, h.mem]
      constructor
      · exact fun hl => hl.elim Or.inr fun hl => Or.inl ⟨hl, rfl⟩
      · exact fun hl => hl.elim (fun hl => Or.inr hl.1) Or.inl
    · rw [h.mem]
      exact ⟨Or.inr, fun hl => hl.resolve_left fun heq => ho heq.2.symm⟩

/-- The relation after a location was stored to. -/
def stored (holds : Loc → Obj → Prop) (location : Loc) (value : Option Obj) (l : Loc) (o : Obj) :
    Prop :=
  if l = location then value = some o else holds l o

/-- Before a location is stored to, it is not registered any more. -/
lemma registers_removeOld {owners : WeakOwners Obj Loc} {holds : Loc → Obj → Prop}
    (h : Registers owners holds) {location : Loc} {old : Option Obj}
    (hold : ∀ o, holds location o → old = some o) :
    Registers (removeOld owners location old) fun l o => l ≠ location ∧ holds l o := by
  cases old with
  | some o => exact h.remove fun o' ho' => (Option.some.inj (hold o' ho')).symm
  | none =>
    have hsame : (fun l o => l ≠ location ∧ holds l o) = holds := by
      funext l o
      refine propext ⟨fun hl => hl.2, fun hl => ⟨?_, hl⟩⟩
      rintro rfl
      cases hold o hl
    rw [hsame]
    exact h

/-- **Storing to a location** registers it for its new value only. -/
theorem registers_store {owners : WeakOwners Obj Loc} {holds : Loc → Obj → Prop}
    (h : Registers owners holds) {location : Loc} {old value : Option Obj}
    (hold : ∀ o, holds location o → old = some o) (hroom : HasRoom owners value) :
    Registers (addNew (removeOld owners location old) location value)
      (stored holds location value) := by
  have hremoved := registers_removeOld h hold
  have hroom' : HasRoom (removeOld owners location old) value := by
    cases old with
    | some o => exact hasRoom_remove hroom o location
    | none => exact hroom
  have hstored : stored holds location value = fun l o =>
      l = location ∧ value = some o ∨ l ≠ location ∧ holds l o := by
    funext l o
    refine propext ?_
    unfold stored
    by_cases hl : l = location
    · simp [hl]
    · simp [hl]
  rw [hstored]
  cases value with
  | none => simpa [addNew] using hremoved
  | some v =>
    have hadded := hremoved.add hroom' fun hl => hl.1 rfl
    simp only [Option.some.injEq]
    simpa only [addNew, eq_comm] using hadded

omit [DecidableEq Loc] in
/-- **Deallocating an object** takes its entry away. -/
theorem registers_clear {owners : WeakOwners Obj Loc} {holds : Loc → Obj → Prop}
    (h : Registers owners holds) (o : Obj) :
    Registers (swapErase same o owners) fun l o' => o' ≠ o ∧ holds l o' := by
  have hslots : ∀ o', slotsOf (swapErase same o owners) o' =
      if o = o' then [] else slotsOf owners o' := by
    intro o'
    unfold slotsOf
    rw [find_swapErase lawful_same h.distinct]
    by_cases ho : o = o'
    · simp [same, ho]
    · simp [same, ho]
  refine ⟨distinct_swapErase lawful_same h.distinct o, fun o' => ?_, fun o' l => ?_⟩
  · rw [hslots]
    split_ifs
    · exact List.nodup_nil
    · exact h.nodup o'
  · rw [hslots]
    split_ifs with ho
    · simp [ho]
    · rw [h.mem]
      exact ⟨fun hl => ⟨Ne.symm ho, hl⟩, fun hl => hl.2⟩

omit [DecidableEq Obj] in
/-- The memory after the slots of an object were set to nil. -/
lemma mem_foldl_update (slots : List Loc) (mem : Loc → Option Obj) (l : Loc) :
    slots.foldl (fun mem slot => Function.update mem slot none) mem l =
      if l ∈ slots then none else mem l := by
  induction slots generalizing mem with
  | nil => rfl
  | cons slot slots ih =>
    rw [List.foldl_cons, ih, Function.update_apply]
    by_cases hl : l = slot
    · simp [hl]
    · simp [hl]

/-! ## Runs keep the table true -/

/-- **The invariant**: the table registers what live locations hold. -/
def Registered (s : WeakState Obj Loc) : Prop := Registers s.heap.owners s.Holds

omit [DecidableEq Obj] in
/-- What is held after a location was stored to. -/
lemma holds_store (s : WeakState Obj Loc) (location : Loc) (value : Option Obj) (live : Bool)
    (hlive : live = true ∨ value = none) :
    (fun l o => Function.update s.live location live l = true ∧
      Function.update s.heap.mem location value l = some o) =
        stored s.Holds location value := by
  funext l o
  refine propext ?_
  unfold stored WeakState.Holds
  by_cases hl : l = location
  · subst hl
    rw [Function.update_self, Function.update_self, if_pos rfl]
    rcases hlive with rfl | rfl
    · simp
    · simp
  · rw [Function.update_of_ne hl, Function.update_of_ne hl, if_neg hl]

/-- Storing to a location, which stays or is not live afterwards. -/
lemma Registered.storeWeak {s : WeakState Obj Loc} (h : Registered s) {location : Loc}
    {value : Option Obj} {live : Bool} (hlive : live = true ∨ value = none)
    (hroom : HasRoom s.heap.owners value) : Registered
      ⟨Objc.storeWeak s.heap location value, Function.update s.live location live⟩ := by
  have hstored : Registers (Objc.storeWeak s.heap location value).owners
      (stored s.Holds location value) := registers_store h (fun o ho => ho.2) hroom
  rw [← holds_store s location value live hlive] at hstored
  exact hstored

/-- Initialising a location that is not used. -/
lemma Registered.initWeak {s : WeakState Obj Loc} (h : Registered s) {location : Loc}
    {value : Option Obj} (hunused : Unused s location) (hroom : HasRoom s.heap.owners value) :
    Registered ⟨Objc.initWeak s.heap location value, Function.update s.live location true⟩ := by
  let s' : WeakState Obj Loc :=
    ⟨{ s.heap with mem := Function.update s.heap.mem location none }, s.live⟩
  have hholds : s'.Holds = s.Holds := by
    funext l o
    refine propext ?_
    unfold WeakState.Holds
    by_cases hl : l = location
    · subst hl
      simp only [s', Function.update_self]
      exact ⟨fun ho => absurd ho.2 (Option.some_ne_none o).symm, fun ho => (hunused o ho).elim⟩
    · simp only [s', Function.update_of_ne hl]
  have hs' : Registered s' := by
    rw [Registered, hholds]
    exact h
  exact hs'.storeWeak (Or.inl rfl) hroom

/-- Deallocating an object. -/
lemma Registered.dealloc {s : WeakState Obj Loc} (h : Registered s) (o : Obj) :
    Registered { s with heap := weakClearObject s.heap o } ∧
      ∀ l, (s.Holds l o → (weakClearObject s.heap o).mem l = none) ∧
        (¬s.Holds l o → (weakClearObject s.heap o).mem l = s.heap.mem l) := by
  unfold weakClearObject
  cases hfound : find same s.heap.owners o with
  | none =>
    refine ⟨h, fun l => ⟨fun hl => ?_, fun _ => rfl⟩⟩
    have hmem := (h.mem o l).mpr hl
    rw [slotsOf, hfound] at hmem
    cases hmem
  | some slots =>
    have hslots : ∀ l, l ∈ slots ↔ s.Holds l o := by
      intro l
      rw [← h.mem, slotsOf, hfound]
      rfl
    refine ⟨?_, fun l => ⟨fun hl => ?_, fun hl => ?_⟩⟩
    · have hcleared := registers_clear h o
      have hholds : (fun l o' => o' ≠ o ∧ s.Holds l o') = WeakState.Holds
          { s with heap := ⟨swapErase same o s.heap.owners,
            slots.foldl (fun mem slot => Function.update mem slot none) s.heap.mem⟩ } := by
        funext l o'
        refine propext ?_
        unfold WeakState.Holds
        dsimp only
        rw [mem_foldl_update]
        by_cases hl : l ∈ slots
        · rw [if_pos hl]
          have hholds := (hslots l).mp hl
          constructor
          · rintro ⟨hne, -, ho'⟩
            exact absurd (Option.some.inj (ho'.symm.trans hholds.2)) hne
          · rintro ⟨-, ho'⟩
            cases ho'
        · rw [if_neg hl]
          constructor
          · exact fun hboth => hboth.2
          · intro hboth
            refine ⟨?_, hboth⟩
            rintro rfl
            exact hl ((hslots l).mpr hboth)
      rw [hholds] at hcleared
      exact hcleared
    · exact (mem_foldl_update slots s.heap.mem l).trans (if_pos ((hslots l).mpr hl))
    · exact (mem_foldl_update slots s.heap.mem l).trans (if_neg (mt (hslots l).mp hl))

/-- **A step that stores well keeps the table true.** -/
lemma Registered.step {s t : WeakState Obj Loc} (h : Registered s) {op : WeakOp Obj Loc}
    (hop : StoresWell s op) (hstep : weakStep s op = some t) : Registered t := by
  cases op with
  | initWeak location value =>
    obtain rfl := Option.some.inj hstep
    exact h.initWeak hop.1 hop.2
  | storeWeak location value =>
    obtain rfl := Option.some.inj hstep
    exact h.storeWeak (Or.inl rfl) hop
  | copyWeak dest src =>
    obtain rfl := Option.some.inj hstep
    exact h.initWeak hop.1 hop.2
  | moveWeak dest src =>
    rw [weakStep] at hstep
    split_ifs at hstep with hne
    obtain rfl := Option.some.inj hstep
    exact (h.initWeak hop.1 hop.2).storeWeak (Or.inr rfl) fun o ho => by cases ho
  | destroyWeak location =>
    obtain rfl := Option.some.inj hstep
    exact h.storeWeak (Or.inr rfl) fun o ho => by cases ho
  | dealloc obj =>
    obtain rfl := Option.some.inj hstep
    exact (h.dealloc obj).1
  | reuse location value =>
    rw [weakStep] at hstep
    split_ifs at hstep with hlive
    obtain rfl := Option.some.inj hstep
    have hholds : s.Holds = WeakState.Holds { s with
        heap := { s.heap with mem := Function.update s.heap.mem location value } } := by
      funext l o
      refine propext ?_
      unfold WeakState.Holds
      by_cases hl : l = location
      · subst hl
        simp [hlive]
      · simp [Function.update_of_ne hl]
    rw [Registered, ← hholds]
    exact h

/-- What the invariant means for the table. -/
lemma Registered.tableTrue {s : WeakState Obj Loc} (h : Registered s) : Zeroing s := by
  have hfind : ∀ o slots, (o, slots) ∈ s.heap.owners → slotsOf s.heap.owners o = slots := by
    intro o slots hmem
    rw [slotsOf, (find_eq_some_iff lawful_same h.distinct).mpr ⟨o, hmem, decide_eq_true rfl⟩]
    rfl
  refine ⟨?_, fun l o hl => ?_, fun o slots hmem l hl => ?_, fun o l => (h.dealloc o).2 l⟩
  · refine (distinct_iff.mp h.distinct).imp fun {a b} hab heq => ?_
    rw [heq, same, decide_eq_true rfl] at hab
    cases hab
  · have hmem := (h.mem o l).mpr hl
    cases hfound : find same s.heap.owners o with
    | none =>
      rw [slotsOf, hfound] at hmem
      cases hmem
    | some slots =>
      obtain ⟨o', ho', heq⟩ := mem_of_find hfound
      obtain rfl := of_decide_eq_true heq
      have hslots := hfind o' slots ho'
      rw [hslots] at hmem
      have hnodup := h.nodup o'
      rw [hslots] at hnodup
      exact ⟨slots, ho', List.count_eq_one_of_mem hnodup hmem⟩
  · rw [← hfind o slots hmem] at hl
    exact (h.mem o l).mp hl

omit [DecidableEq Loc] in
/-- The invariant at the start. -/
lemma registered_start (mem : Loc → Option Obj) : Registered (WeakState.start mem) := by
  refine ⟨List.Pairwise.nil, fun o => List.nodup_nil, fun o l => ?_⟩
  constructor
  · exact fun hl => absurd hl List.not_mem_nil
  · exact fun hl => Bool.noConfusion hl.1

/-- **Weak references are zeroing** in every run in which there is room for what is stored.

**Proof sketch.** The table registers what live locations hold. A location leaves the list of its old
object and enters that of its new one, and deallocating an object removes its list, after all the
locations in it have been set to nil. -/
theorem zeroing {mem : Loc → Option Obj} {ops : List (WeakOp Obj Loc)} {s : WeakState Obj Loc}
    (hops : Along weakStep StoresWell (WeakState.start mem) ops)
    (h : exec weakStep (WeakState.start mem) ops = some s) : Zeroing s := by
  have hs : Registered s := invariant_along (P := Registered)
    (fun _ _ _ hs hop hstep => hs.step hop hstep) (registered_start mem) hops h
  exact hs.tableTrue

/-- Two locations, one of which is moved, before their object goes. -/
def movedAndCleared : List (WeakOp ℕ ℕ) :=
  [.initWeak 0 (some 7), .copyWeak 1 0, .moveWeak 2 0, .dealloc 7]

/-- There is room for two locations. -/
theorem zeroing_moved : ∃ s, exec weakStep (WeakState.start fun _ => none) movedAndCleared = some s ∧
    Zeroing s ∧ s.heap.mem 1 = none ∧ s.heap.mem 2 = none := by
  have hroom : ∀ (owners : WeakOwners ℕ ℕ) value, owners.length < maxWeakOwners →
      HasRoom owners value := fun owners value hlt o _ => Or.inr hlt
  have hops : Along weakStep StoresWell (WeakState.start fun _ => none) movedAndCleared := by
    refine ⟨⟨fun o ho => Bool.noConfusion ho.1, hroom _ _ (by decide)⟩, fun t ht => ?_⟩
    obtain rfl := Option.some.inj ht
    refine ⟨⟨fun o ho => Bool.noConfusion ho.1, hroom _ _ (by decide)⟩, fun t ht => ?_⟩
    obtain rfl := Option.some.inj ht
    refine ⟨⟨fun o ho => Bool.noConfusion ho.1, hroom _ _ (by decide)⟩, fun t ht => ?_⟩
    obtain rfl := Option.some.inj ht
    exact ⟨trivial, fun _ _ => trivial⟩
  exact ⟨_, rfl, zeroing hops rfl, rfl, rfl⟩

/-! ## Objects that are forgotten -/

/-- One location is stored to, for one object after another. -/
def oneAfterAnother (n : ℕ) : List (WeakOp ℕ Unit) :=
  (List.range n).map fun o => .storeWeak () (some o)

omit [DecidableEq Loc] in
/-- Adding a slot for a new object, with room. -/
lemma map_fst_add {owners : WeakOwners Obj Loc} {o : Obj} (l : Loc)
    (hnew : o ∉ owners.map Prod.fst) (hroom : owners.length < maxWeakOwners) :
    (weakOwnerAddSlot owners o l).map Prod.fst = owners.map Prod.fst ++ [o] := by
  have hnone : find same owners o = none := by
    refine find_eq_none_iff.mpr fun e he => decide_eq_false ?_
    rintro rfl
    exact hnew (List.mem_map_of_mem he)
  rw [weakOwnerAddSlot, hnone]
  dsimp only
  rw [if_pos hroom, List.map_append]
  rfl

/-- Removing a slot keeps the objects of the table. -/
lemma map_fst_removeOld (owners : WeakOwners Obj Loc) (l : Loc) (old : Option Obj) :
    (removeOld owners l old).map Prod.fst = owners.map Prod.fst := by
  cases old with
  | none => rfl
  | some o =>
    rw [removeOld, weakOwnerRemoveSlot]
    split
    · exact map_fst_replace ..
    · rfl

/-- All the objects that the location has held are still in the table. -/
lemma owners_oneAfterAnother {n : ℕ} (hn : n ≤ maxWeakOwners) : ∃ s : WeakState ℕ Unit,
    exec weakStep (WeakState.start fun _ => none) (oneAfterAnother n) = some s ∧
      s.heap.owners.map Prod.fst = List.range n := by
  induction n with
  | zero => exact ⟨_, rfl, rfl⟩
  | succ n ih =>
    obtain ⟨s, hs, howners⟩ := ih (by omega)
    have hkeys := map_fst_removeOld s.heap.owners () (s.heap.mem ())
    have hlength : (removeOld s.heap.owners () (s.heap.mem ())).length = n := by
      rw [← List.length_map (f := Prod.fst), hkeys, howners, List.length_range]
    refine ⟨⟨Objc.storeWeak s.heap () (some n), Function.update s.live () true⟩, ?_, ?_⟩
    · rw [oneAfterAnother, List.range_succ, List.map_append]
      exact exec_append.mpr ⟨s, hs, rfl⟩
    · rw [List.range_succ, ← howners, ← hkeys]
      refine map_fst_add () ?_ (by omega)
      rw [hkeys, howners, List.mem_range]
      exact Nat.lt_irrefl n

/-- **The 1025th object** that one location holds is not registered, although no other object is
weakly referenced any more. -/
theorem not_zeroing_forgotten : ∃ s : WeakState ℕ Unit,
    exec weakStep (WeakState.start fun _ => none) (oneAfterAnother 1025) = some s ∧ ¬Zeroing s := by
  obtain ⟨s, hs, howners⟩ := owners_oneAfterAnother (Nat.le_refl maxWeakOwners)
  let t : WeakState ℕ Unit := ⟨Objc.storeWeak s.heap () (some 1024), Function.update s.live () true⟩
  refine ⟨t, ?_, fun h => ?_⟩
  · have hrange : oneAfterAnother 1025 =
        oneAfterAnother 1024 ++ [WeakOp.storeWeak () (some 1024)] := by
      rw [oneAfterAnother, List.range_succ, List.map_append]
      rfl
    rw [hrange]
    exact exec_append.mpr ⟨s, hs, rfl⟩
  · have hkeys := map_fst_removeOld s.heap.owners () (s.heap.mem ())
    obtain ⟨slots, hmem, -⟩ := h.registered () 1024 ⟨rfl, rfl⟩
    have hkey : 1024 ∈ t.heap.owners.map Prod.fst := List.mem_map_of_mem hmem
    have hfull : t.heap.owners.map Prod.fst = List.range 1024 := by
      have hnew : find same (removeOld s.heap.owners () (s.heap.mem ())) 1024 = none := by
        refine find_eq_none_iff.mpr fun e he => decide_eq_false ?_
        intro heq
        have hkey' : e.1 ∈ (removeOld s.heap.owners () (s.heap.mem ())).map Prod.fst :=
          List.mem_map_of_mem he
        rw [hkeys, howners, List.mem_range, heq] at hkey'
        exact Nat.lt_irrefl 1024 hkey'
      have hlength : ¬(removeOld s.heap.owners () (s.heap.mem ())).length < maxWeakOwners := by
        rw [← List.length_map (f := Prod.fst), hkeys, howners, List.length_range]
        exact Nat.lt_irrefl _
      change (weakOwnerAddSlot (removeOld s.heap.owners () (s.heap.mem ())) 1024 ()).map Prod.fst = _
      rw [weakOwnerAddSlot, hnew]
      dsimp only
      rw [if_neg hlength, hkeys, howners]
      rfl
    rw [hfull, List.mem_range] at hkey
    exact Nat.lt_irrefl 1024 hkey

end Asteros.Objc
