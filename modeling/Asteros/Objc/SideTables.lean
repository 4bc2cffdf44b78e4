import Asteros.Objc.Arc
import Asteros.Objc.Weak

set_option autoImplicit false

/-!
# Full side tables

Retains beyond the first owner and weak locations are kept in two tables of `arc.c`, with places for
4096 and for 1024 objects. A retain of an object without an entry when the table is full changes
nothing, and so does the registration of a weak location; both return as if they had succeeded. An
entry stays when the retains are balanced by releases, until the object is deallocated, and so does an
object whose weak locations have gone.

Objects are named by their address here, which is used again once the object is freed. Between the
message `dealloc` and the end of `_objc_rootDealloc` an object is neither live nor free.

## Main definitions

* `step` — the operations on both tables.
* `Reflected` — a retain counts, and a weak location is registered.
* `HasPlace` — the condition: there is an entry, or room for one.
* `Faithful` — the tables say who owns what, and who is to be set to nil.

## Main results

* `reflected_iff` — an operation is reflected exactly if it has a place.
* `nothingDropped_iff` — so for the runs, and then the tables are faithful.
* `not_nothingDropped` — the retain of the 4097th object is dropped.
-/

namespace Asteros.Objc.SideTables

open Arc (Refcounts rootRetain rootRelease rootRetainCount maxRefcounted)
open KeyedList Transition Unordered

variable {Obj Loc : Type} [DecidableEq Obj] [DecidableEq Loc]

/-! ## Operations -/

/-- What becomes of the memory at an address. -/
inductive Phase where
  /-- No object is there. -/
  | free
  /-- An object is there. -/
  | live
  /-- The object was sent `dealloc`. -/
  | deallocating
  deriving DecidableEq

/-- The tables, and the history of the objects. -/
structure Tables (Obj Loc : Type) where
  /-- `g_refcounts`. -/
  refcounts : Refcounts Obj
  /-- `g_weak_owners`, and the weak locations. -/
  weak : WeakState Obj Loc
  /-- The memory. -/
  phase : Obj → Phase
  /-- History: the owners of an object, which are the one that allocated it and those that retained
  it, less those that released it. -/
  owners : Obj → ℕ

/-- An operation. -/
inductive Op (Obj Loc : Type) where
  /-- `_objc_rootAlloc`. -/
  | alloc (obj : Obj)
  /-- `_objc_rootRetain`. -/
  | retain (obj : Obj)
  /-- `_objc_rootRelease`. -/
  | release (obj : Obj)
  /-- `_objc_rootDealloc`. -/
  | dealloc (obj : Obj)
  /-- An operation on a weak location. -/
  | weak (op : WeakOp Obj Loc)

/-- Only a location that holds nothing is initialised, and objects are deallocated by
`_objc_rootDealloc`. -/
def proper (s : WeakState Obj Loc) : WeakOp Obj Loc → Bool
  | .initWeak location _ => !s.live location || (s.heap.mem location).isNone
  | .copyWeak dest _ => !s.live dest || (s.heap.mem dest).isNone
  | .moveWeak dest _ => !s.live dest || (s.heap.mem dest).isNone
  | .dealloc _ => false
  | _ => true

/-- One operation; `none` if it is one for an object that is not there. -/
def step (s : Tables Obj Loc) : Op Obj Loc → Option (Tables Obj Loc)
  | .alloc obj =>
    if s.phase obj = .free then
      some { s with
        phase := Function.update s.phase obj .live
        owners := Function.update s.owners obj 1 }
    else none
  | .retain obj =>
    if s.phase obj = .live then
      some { s with
        refcounts := rootRetain s.refcounts obj
        owners := Function.update s.owners obj (s.owners obj + 1) }
    else none
  | .release obj =>
    if s.phase obj = .live then
      let released := rootRelease s.refcounts obj
      some { s with
        refcounts := released.1
        phase := if released.2 then Function.update s.phase obj .deallocating else s.phase
        owners := Function.update s.owners obj (s.owners obj - 1) }
    else none
  | .dealloc obj =>
    if s.phase obj = .deallocating then
      some { s with
        weak := { s.weak with heap := weakClearObject s.weak.heap obj }
        phase := Function.update s.phase obj .free }
    else none
  | .weak op =>
    if proper s.weak op then (weakStep s.weak op).map fun weak => { s with weak } else none

/-- At first, whatever is in the memory of the locations. -/
def start (mem : Loc → Option Obj) : Tables Obj Loc where
  refcounts := []
  weak := .start mem
  phase _ := .free
  owners _ := 0

/-! ## What is claimed -/

/-- The table behind some releases of an object. -/
def released (table : Refcounts Obj) (obj : Obj) (n : ℕ) : Refcounts Obj :=
  (fun table => (rootRelease table obj).1)^[n] table

/-- So many releases send no `dealloc`, and the next one does. -/
def DeallocAfter (table : Refcounts Obj) (obj : Obj) (n : ℕ) : Prop :=
  (∀ k < n, (rootRelease (released table obj k) obj).2 = false) ∧
    (rootRelease (released table obj n) obj).2 = true

/-- A retain counts: it takes one more release before `dealloc`. -/
structure RetainReflected (table : Refcounts Obj) (obj : Obj) : Prop where
  /-- The count. -/
  count : rootRetainCount (rootRetain table obj) obj = rootRetainCount table obj + 1
  /-- The releases. -/
  later : ∀ n, DeallocAfter table obj n ↔ DeallocAfter (rootRetain table obj) obj (n + 1)

/-- The location that an operation stores an object to, and the object. -/
def stores (s : WeakState Obj Loc) : WeakOp Obj Loc → Option (Loc × Obj)
  | .initWeak location value => value.map fun obj => (location, obj)
  | .storeWeak location value => value.map fun obj => (location, obj)
  | .copyWeak dest src => (s.heap.mem src).map fun obj => (dest, obj)
  | .moveWeak dest src => (s.heap.mem src).map fun obj => (dest, obj)
  | _ => none

/-- The location that an operation stores an object to is registered, and is set to nil when the
object is deallocated. -/
def WeakReflected (s : WeakState Obj Loc) (op : WeakOp Obj Loc) : Prop :=
  ∀ location obj, stores s op = some (location, obj) → ∀ s', weakStep s op = some s' →
    location ∈ slotsOf s'.heap.owners obj ∧ (weakClearObject s'.heap obj).mem location = none

/-- An operation is not dropped. -/
def Reflected (s : Tables Obj Loc) : Op Obj Loc → Prop
  | .retain obj => RetainReflected s.refcounts obj
  | .weak op => WeakReflected s.weak op
  | _ => True

/-- The condition: the object of the operation has an entry in the table, or there is room for
one. -/
def HasPlace (s : Tables Obj Loc) : Op Obj Loc → Prop
  | .retain obj => Arc.HasRoom s.refcounts obj
  | .weak op => HasRoom s.weak.heap.owners ((stores s.weak op).map Prod.snd)
  | _ => True

/-- The table of the retain counts has the owners of the live objects, so that the last release
sends `dealloc`, and the other table is true to the weak locations. -/
structure Faithful (s : Tables Obj Loc) : Prop where
  /-- The retain count. -/
  count : ∀ obj, s.phase obj = .live → rootRetainCount s.refcounts obj = s.owners obj
  /-- The last release. -/
  last : ∀ obj, s.phase obj = .live →
    ((rootRelease s.refcounts obj).2 = true ↔ s.owners obj = 1)
  /-- The weak locations. -/
  zeroing : Zeroing s.weak

/-- Every operation of a run is reflected. -/
def NothingDropped (mem : Loc → Option Obj) (ops : List (Op Obj Loc)) : Prop :=
  Along step Reflected (start mem) ops

/-! ## One retain -/

section

variable {table : Refcounts Obj} {obj other : Obj} {n : ℕ}

/-- One release more. -/
lemma released_succ (table : Refcounts Obj) (obj : Obj) (n : ℕ) :
    released table obj (n + 1) = (rootRelease (released table obj n) obj).1 :=
  Function.iterate_succ_apply' _ n table

/-- A release that sends nothing counts. -/
lemma rootRetainCount_release (h : (rootRelease table obj).2 = false) :
    rootRetainCount (rootRelease table obj).1 obj + 1 = rootRetainCount table obj := by
  rw [rootRetainCount, rootRetainCount]
  rw [rootRelease] at h ⊢
  split at h
  · next extra hfind =>
    dsimp only
    rw [find_replace lawful_same, hfind, if_pos ⟨Arc.same_eq_true.mpr rfl, rfl⟩]
    simp only [Option.getD_some]
    omega
  · cases h
  · cases h

/-- As long as there are more owners the releases send nothing, and each of them counts. -/
lemma rootRetainCount_released (h : n < rootRetainCount table obj) :
    rootRetainCount (released table obj n) obj + n = rootRetainCount table obj ∧
      ∀ k < n, (rootRelease (released table obj k) obj).2 = false := by
  induction n with
  | zero => exact ⟨rfl, nofun⟩
  | succ n ih =>
    obtain ⟨hcount, hkept⟩ := ih (by omega)
    have hlast : (rootRelease (released table obj n) obj).2 = false := by
      rw [← Bool.not_eq_true, Arc.rootRelease_sends]
      omega
    refine ⟨?_, fun k hk => ?_⟩
    · have hone := rootRetainCount_release hlast
      rw [released_succ]
      omega
    · rcases Nat.lt_succ_iff_lt_or_eq.mp hk with hk | rfl
      · exact hkept k hk
      · exact hlast

/-- **The retain count is the number of releases** up to the one that sends `dealloc`. -/
theorem deallocAfter_iff : DeallocAfter table obj n ↔ n + 1 = rootRetainCount table obj := by
  constructor
  · rintro ⟨hkept, hlast⟩
    rcases Nat.lt_or_ge n (rootRetainCount table obj) with hlt | hge
    · have hcount := (rootRetainCount_released hlt).1
      rw [Arc.rootRelease_sends] at hlast
      omega
    · -- the release that uses the count up has sent `dealloc`
      have hpos : 0 < rootRetainCount table obj := by
        rw [rootRetainCount]
        omega
      obtain ⟨m, hm⟩ : ∃ m, rootRetainCount table obj = m + 1 :=
        ⟨rootRetainCount table obj - 1, by omega⟩
      have hcount := (rootRetainCount_released (n := m) (by omega : m < rootRetainCount table obj)).1
      have hsent : (rootRelease (released table obj m) obj).2 = true := by
        rw [Arc.rootRelease_sends]
        omega
      rw [hkept m (by omega)] at hsent
      cases hsent
  · intro h
    obtain ⟨hcount, hkept⟩ := rootRetainCount_released (by omega : n < rootRetainCount table obj)
    refine ⟨hkept, ?_⟩
    rw [Arc.rootRelease_sends]
    omega

/-- A retain without a place changes nothing. -/
lemma rootRetain_eq_self (h : ¬Arc.HasRoom table obj) : rootRetain table obj = table := by
  rw [Arc.HasRoom, not_or] at h
  have hnone : find same table obj = none := by simpa using h.1
  rw [rootRetain, hnone]
  dsimp only
  rw [if_neg h.2]

/-- **A retain is reflected exactly if it has a place.** -/
theorem retainReflected_iff : RetainReflected table obj ↔ Arc.HasRoom table obj := by
  constructor
  · intro h
    by_contra hfull
    have hcount := h.count
    rw [rootRetain_eq_self hfull] at hcount
    omega
  · intro hroom
    have hcount := Arc.rootRetainCount_rootRetain hroom obj
    rw [if_pos rfl] at hcount
    refine ⟨hcount, fun n => ?_⟩
    rw [deallocAfter_iff, deallocAfter_iff, hcount]
    omega

end

/-! ## One weak location -/

section

variable {owners owners' : WeakOwners Obj Loc} {heap : WeakHeap Obj Loc} {obj : Obj}
  {location location' : Loc} {old : Option Obj}

omit [DecidableEq Loc] in
/-- An object has an entry if it is one of the keys. -/
lemma isSome_find : (find same owners obj).isSome ↔ obj ∈ owners.map Prod.fst := by
  rw [← not_iff_not, Option.not_isSome_iff_eq_none, find_eq_none_iff, List.mem_map, not_exists]
  constructor
  · rintro h e ⟨he, rfl⟩
    have hne := h e he
    rw [same, decide_eq_false_iff_not] at hne
    exact hne rfl
  · intro h e he
    rw [same, decide_eq_false_iff_not]
    exact fun heq => h e ⟨he, heq⟩

omit [DecidableEq Loc] in
/-- The room depends on the keys only. -/
lemma hasRoom_congr (h : owners'.map Prod.fst = owners.map Prod.fst) :
    HasRoom owners' (some obj) ↔ HasRoom owners (some obj) := by
  have hlength : owners'.length = owners.length := by
    simpa using congrArg List.length h
  simp only [HasRoom, isSome_find, h, hlength]

/-- Taking a location out of a list leaves the other locations. -/
lemma mem_slotsOf_removeOld (hne : location' ≠ location) :
    location' ∈ slotsOf (removeOld owners location old) obj ↔ location' ∈ slotsOf owners obj := by
  cases old with
  | none => rfl
  | some o =>
    rw [removeOld, (slotsOf_remove owners o location obj).mem_iff]
    split
    · next ho =>
      rw [List.mem_erase_of_ne hne, ho]
    · rfl

/-- **A location is registered exactly if its object has a place.** -/
lemma mem_slotsOf_storeWeak :
    location ∈ slotsOf (Objc.storeWeak heap location (some obj)).owners obj ↔
      HasRoom heap.owners (some obj) := by
  rw [← hasRoom_congr (map_fst_removeOld heap.owners location (heap.mem location))]
  change location ∈ slotsOf (weakOwnerAddSlot
    (removeOld heap.owners location (heap.mem location)) obj location) obj ↔ _
  generalize removeOld heap.owners location (heap.mem location) = removed
  constructor
  · intro hmem
    by_contra hfull
    simp only [HasRoom, Option.mem_def, Option.some_inj, forall_eq', not_or] at hfull
    have hnone : find same removed obj = none := by simpa using hfull.1
    rw [weakOwnerAddSlot, hnone] at hmem
    dsimp only at hmem
    rw [if_neg hfull.2, slotsOf, hnone] at hmem
    cases hmem
  · intro hroom
    rw [slotsOf_add hroom, if_pos rfl]
    exact List.mem_append_right _ List.mem_cons_self

/-- A registered location is set to nil. -/
lemma cleared_of_mem (h : location ∈ slotsOf heap.owners obj) :
    (weakClearObject heap obj).mem location = none := by
  rw [slotsOf] at h
  rw [weakClearObject]
  cases hfind : find same heap.owners obj with
  | none =>
    rw [hfind] at h
    cases h
  | some slots =>
    rw [hfind, Option.getD_some] at h
    exact (mem_foldl_update slots heap.mem location).trans (if_pos h)

/-- A location to which an operation stores an object is registered exactly if the object has a
place. -/
lemma mem_slotsOf_weakStep {s s' : WeakState Obj Loc} {op : WeakOp Obj Loc}
    (hstores : stores s op = some (location, obj)) (hs : weakStep s op = some s') :
    location ∈ slotsOf s'.heap.owners obj ↔ HasRoom s.heap.owners (some obj) := by
  cases op with
  | initWeak l value =>
    obtain ⟨o, rfl, hpair⟩ := Option.map_eq_some_iff.mp hstores
    obtain ⟨rfl, rfl⟩ := Prod.mk.inj hpair
    obtain rfl := Option.some.inj hs
    exact mem_slotsOf_storeWeak
  | storeWeak l value =>
    obtain ⟨o, rfl, hpair⟩ := Option.map_eq_some_iff.mp hstores
    obtain ⟨rfl, rfl⟩ := Prod.mk.inj hpair
    obtain rfl := Option.some.inj hs
    exact mem_slotsOf_storeWeak
  | copyWeak dest src =>
    obtain ⟨o, hvalue, hpair⟩ := Option.map_eq_some_iff.mp hstores
    obtain ⟨rfl, rfl⟩ := Prod.mk.inj hpair
    obtain rfl := Option.some.inj hs
    dsimp only [Objc.copyWeak]
    rw [hvalue]
    exact mem_slotsOf_storeWeak
  | moveWeak dest src =>
    obtain ⟨o, hvalue, hpair⟩ := Option.map_eq_some_iff.mp hstores
    obtain ⟨rfl, rfl⟩ := Prod.mk.inj hpair
    rw [weakStep] at hs
    split at hs
    · cases hs
    · next hne =>
      obtain rfl := Option.some.inj hs
      dsimp only [Objc.moveWeak]
      rw [hvalue]
      refine (mem_slotsOf_removeOld hne).trans ?_
      exact mem_slotsOf_storeWeak
  | destroyWeak l => cases hstores
  | dealloc o => cases hstores
  | reuse l value => cases hstores

/-- **The store to a weak location is reflected exactly if the object has a place.** -/
theorem weakReflected_iff {s s' : WeakState Obj Loc} {op : WeakOp Obj Loc}
    (hs : weakStep s op = some s') :
    WeakReflected s op ↔ HasRoom s.heap.owners ((stores s op).map Prod.snd) := by
  constructor
  · intro h o ho
    obtain ⟨⟨location, obj⟩, hstores, rfl⟩ := Option.map_eq_some_iff.mp ho
    have hmem := (h location obj hstores s' hs).1
    exact (mem_slotsOf_weakStep hstores hs).mp hmem obj rfl
  · intro hroom location obj hstores t ht
    rw [hstores] at hroom
    have hmem := (mem_slotsOf_weakStep hstores ht).mpr hroom
    exact ⟨hmem, cleared_of_mem hmem⟩

end

/-! ## Runs -/

section

variable {s s' : Tables Obj Loc} {op : Op Obj Loc}

/-- **An operation is reflected exactly if it has a place.** -/
theorem reflected_iff (hs : step s op = some s') : Reflected s op ↔ HasPlace s op := by
  cases op with
  | alloc obj => exact Iff.rfl
  | retain obj => exact retainReflected_iff
  | release obj => exact Iff.rfl
  | dealloc obj => exact Iff.rfl
  | weak op =>
    rw [step, Option.ite_none_right_eq_some] at hs
    obtain ⟨weak, hweak, -⟩ := Option.map_eq_some_iff.mp hs.2
    exact weakReflected_iff hweak

/-- The table has the owners of the live objects and nothing of the others, and the weak locations
are registered. -/
structure Tracked (s : Tables Obj Loc) : Prop where
  /-- The entries of the table are apart. -/
  distinct : Distinct same s.refcounts
  /-- Live objects. -/
  count : ∀ obj, s.phase obj = .live → rootRetainCount s.refcounts obj = s.owners obj
  /-- Other objects. -/
  clean : ∀ obj, s.phase obj ≠ .live → rootRetainCount s.refcounts obj = 1
  /-- Weak locations. -/
  registered : Registered s.weak

/-- What the invariant says of the tables. -/
lemma Tracked.faithful (h : Tracked s) : Faithful s where
  count := h.count
  last obj hlive := by
    rw [Arc.rootRelease_sends, h.count obj hlive]
  zeroing := h.registered.tableTrue

omit [DecidableEq Loc] in
/-- Before the first object. -/
lemma tracked_start (mem : Loc → Option Obj) : Tracked (start mem) where
  distinct := List.Pairwise.nil
  count _ hlive := by cases hlive
  clean _ _ := rfl
  registered := registered_start mem

/-- An allocation. -/
lemma Tracked.alloc {obj : Obj} (h : Tracked s) (hs : step s (.alloc obj) = some s') :
    Tracked s' := by
  rw [step, Option.ite_none_right_eq_some] at hs
  obtain ⟨hfree, hs⟩ := hs
  obtain rfl := Option.some.inj hs
  refine ⟨h.distinct, fun o ho => ?_, fun o ho => ?_, h.registered⟩
  · rcases eq_or_ne o obj with rfl | hne
    · have hone := h.clean o (by rw [hfree]; decide)
      simpa using hone
    · simp only [Function.update_of_ne hne] at ho ⊢
      exact h.count o ho
  · rcases eq_or_ne o obj with rfl | hne
    · simp at ho
    · simp only [Function.update_of_ne hne] at ho
      exact h.clean o ho

/-- A retain that has a place. -/
lemma Tracked.retain {obj : Obj} (h : Tracked s) (hroom : Arc.HasRoom s.refcounts obj)
    (hs : step s (.retain obj) = some s') : Tracked s' := by
  rw [step, Option.ite_none_right_eq_some] at hs
  obtain ⟨hlive, hs⟩ := hs
  obtain rfl := Option.some.inj hs
  have hcount := Arc.rootRetainCount_rootRetain hroom
  refine ⟨Arc.distinct_rootRetain h.distinct, fun o ho => ?_, fun o ho => ?_, h.registered⟩
  · dsimp only
    rw [hcount, h.count o ho]
    rcases eq_or_ne obj o with rfl | hne
    · rw [if_pos rfl, Function.update_self]
    · rw [if_neg hne, Function.update_of_ne hne.symm, Nat.add_zero]
  · have hne : obj ≠ o := by
      rintro rfl
      exact ho hlive
    dsimp only
    rw [hcount, if_neg hne, h.clean o ho]

omit [DecidableEq Loc] in
/-- The entry of an object is gone when it is sent `dealloc`. -/
lemma rootRetainCount_sent {table : Refcounts Obj} {obj : Obj} (hd : Distinct same table)
    (hsent : (rootRelease table obj).2 = true) :
    rootRetainCount (rootRelease table obj).1 obj = 1 := by
  rw [rootRetainCount]
  rw [rootRelease] at hsent ⊢
  split at hsent
  · cases hsent
  · dsimp only
    rw [find_swapErase lawful_same hd, if_pos (Arc.same_eq_true.mpr rfl)]
    rfl
  · next hnone =>
    dsimp only
    rw [hnone]
    rfl

/-- A release. -/
lemma Tracked.release {obj : Obj} (h : Tracked s) (hs : step s (.release obj) = some s') :
    Tracked s' := by
  rw [step, Option.ite_none_right_eq_some] at hs
  obtain ⟨hlive, hs⟩ := hs
  obtain rfl := Option.some.inj hs
  -- the other objects keep their entries
  have hother : ∀ o, obj ≠ o →
      rootRetainCount (rootRelease s.refcounts obj).1 o = rootRetainCount s.refcounts o := by
    intro o hne
    have hcount := Arc.rootRetainCount_rootRelease h.distinct o (fun heq => absurd heq hne)
    rwa [if_neg hne, Nat.add_zero] at hcount
  have hdistinct := @Arc.distinct_rootRelease _ _ _ obj h.distinct
  cases hsent : (rootRelease s.refcounts obj).2 with
  | true =>
    simp only [↓reduceIte]
    refine ⟨hdistinct, fun o ho => ?_, fun o ho => ?_, h.registered⟩
    · rcases eq_or_ne obj o with rfl | hne
      · simp at ho
      · simp only [Function.update_of_ne hne.symm] at ho ⊢
        rw [hother o hne, h.count o ho]
    · rcases eq_or_ne obj o with rfl | hne
      · exact rootRetainCount_sent h.distinct hsent
      · simp only [Function.update_of_ne hne.symm] at ho
        exact (hother o hne).trans (h.clean o ho)
  | false =>
    simp only [Bool.false_eq_true, ↓reduceIte]
    refine ⟨hdistinct, fun o ho => ?_, fun o ho => ?_, h.registered⟩
    · rcases eq_or_ne obj o with rfl | hne
      · have hcount := rootRetainCount_release hsent
        have hold := h.count obj hlive
        simp only [Function.update_self]
        omega
      · simp only [Function.update_of_ne hne.symm]
        rw [hother o hne, h.count o ho]
    · have hne : obj ≠ o := by
        rintro rfl
        exact ho hlive
      exact (hother o hne).trans (h.clean o ho)

/-- The end of a `dealloc`. -/
lemma Tracked.dealloc {obj : Obj} (h : Tracked s) (hs : step s (.dealloc obj) = some s') :
    Tracked s' := by
  rw [step, Option.ite_none_right_eq_some] at hs
  obtain ⟨hphase, hs⟩ := hs
  obtain rfl := Option.some.inj hs
  refine ⟨h.distinct, fun o ho => ?_, fun o ho => ?_, (h.registered.dealloc obj).1⟩
  · have hne : o ≠ obj := by
      rintro rfl
      simp at ho
    simp only [Function.update_of_ne hne] at ho
    exact h.count o ho
  · rcases eq_or_ne o obj with rfl | hne
    · exact h.clean o (by rw [hphase]; decide)
    · simp only [Function.update_of_ne hne] at ho
      exact h.clean o ho

omit [DecidableEq Loc] in
/-- An operation on a weak location that has a place. -/
lemma storesWell_of_proper {s : WeakState Obj Loc} {op : WeakOp Obj Loc} (hproper : proper s op)
    (hroom : HasRoom s.heap.owners ((stores s op).map Prod.snd)) : StoresWell s op := by
  have hunused : ∀ location, (!s.live location || (s.heap.mem location).isNone) = true →
      Unused s location := by
    rintro location hfree o ⟨hlive, hmem⟩
    rw [hlive, hmem] at hfree
    cases hfree
  have hvalue : ∀ (location : Loc) (value : Option Obj),
      (value.map fun obj => (location, obj)).map Prod.snd = value := by
    rintro location (_ | obj) <;> rfl
  cases op with
  | initWeak location value => exact ⟨hunused location hproper, by rwa [stores, hvalue] at hroom⟩
  | storeWeak location value => exact (by rwa [stores, hvalue] at hroom : HasRoom _ value)
  | copyWeak dest src => exact ⟨hunused dest hproper, by rwa [stores, hvalue] at hroom⟩
  | moveWeak dest src => exact ⟨hunused dest hproper, by rwa [stores, hvalue] at hroom⟩
  | destroyWeak location => trivial
  | dealloc obj => trivial
  | reuse location value => trivial

/-- **Every operation that has a place** keeps the tables faithful. -/
theorem Tracked.step (h : Tracked s) (hplace : HasPlace s op)
    (hs : SideTables.step s op = some s') : Tracked s' := by
  cases op with
  | alloc obj => exact h.alloc hs
  | retain obj => exact h.retain hplace hs
  | release obj => exact h.release hs
  | dealloc obj => exact h.dealloc hs
  | weak op =>
    rw [SideTables.step, Option.ite_none_right_eq_some] at hs
    obtain ⟨hproper, hs⟩ := hs
    obtain ⟨weak, hweak, rfl⟩ := Option.map_eq_some_iff.mp hs
    exact ⟨h.distinct, h.count, h.clean,
      h.registered.step (storesWell_of_proper hproper hplace) hweak⟩

/-- **Nothing is dropped exactly if every operation has a place.** In every run, every retain counts
and every weak location that is stored to is registered, if and only if each of these operations
finds an entry for its object in the table, or room for one; and then the retain counts of all live
objects are those of their owners, and all weak locations are set to nil with their objects. -/
theorem nothingDropped_iff {mem : Loc → Option Obj} {ops : List (Op Obj Loc)}
    (h : exec SideTables.step (start mem) ops = some s) :
    (NothingDropped mem ops ↔ Along SideTables.step HasPlace (start mem) ops) ∧
      (Along SideTables.step HasPlace (start mem) ops → Faithful s) := by
  refine ⟨along_congr (fun _ _ _ hs => reflected_iff hs) h, fun hplaces => ?_⟩
  have hs : Tracked s := invariant_along (P := Tracked)
    (fun _ _ _ ht hplace hstep => ht.step hplace hstep) (tracked_start mem) hplaces h
  exact hs.faithful

end

/-- An object with two owners and a weak location. -/
def shared : List (Op ℕ Unit) :=
  [.alloc 7, .retain 7, .weak (.initWeak () (some 7)), .release 7, .release 7, .dealloc 7]

/-- The operations on it have their places. -/
theorem nothingDropped_shared :
    ∃ s, exec step (start fun _ => none) shared = some s ∧ s.weak.heap.mem () = none ∧
      NothingDropped (fun _ => none) shared ∧ Faithful s := by
  have hplaces : Along step HasPlace (start fun _ => none) shared := by
    refine ⟨trivial, fun t ht => ?_⟩
    obtain rfl := Option.some.inj ht
    refine ⟨.inr (by decide), fun t ht => ?_⟩
    obtain rfl := Option.some.inj ht
    refine ⟨fun o _ => .inr (by decide), fun t ht => ?_⟩
    obtain rfl := Option.some.inj ht
    exact ⟨trivial, fun _ _ => ⟨trivial, fun _ _ => ⟨trivial, fun _ _ => trivial⟩⟩⟩
  obtain ⟨hreflected, hfaithful⟩ := nothingDropped_iff (rfl : exec SideTables.step
    (start fun _ => none) shared = some _)
  exact ⟨_, rfl, rfl, hreflected.mpr hplaces, hfaithful hplaces⟩

/-! ## One object too many -/

/-- Objects with two owners each. -/
def owned (n : ℕ) : List (Op ℕ Unit) := (List.range n).flatMap fun o => [.alloc o, .retain o]

/-- One object more. -/
lemma owned_succ (n : ℕ) : owned (n + 1) = (owned n ++ [Op.alloc n]) ++ [Op.retain n] := by
  rw [owned, List.range_succ, List.flatMap_append, List.append_assoc]
  rfl

/-- Each of them has an entry, as long as there is room. -/
lemma exec_owned {n : ℕ} (hn : n ≤ maxRefcounted) : ∃ s : Tables ℕ Unit,
    exec step (start fun _ => none) (owned n) = some s ∧
      s.refcounts = (List.range n).map (fun o => (o, 1)) ∧ ∀ o, n ≤ o → s.phase o = .free := by
  induction n with
  | zero => exact ⟨_, rfl, rfl, fun _ _ => rfl⟩
  | succ n ih =>
    obtain ⟨s, hs, htable, hfree⟩ := ih (by omega)
    have hnew : find same s.refcounts n = none := by
      refine find_eq_none_iff.mpr fun e he => ?_
      rw [htable] at he
      obtain ⟨o, ho, rfl⟩ := List.mem_map.mp he
      exact decide_eq_false (Nat.ne_of_lt (List.mem_range.mp ho))
    have hlength : s.refcounts.length < maxRefcounted := by
      rw [htable, List.length_map, List.length_range]
      omega
    obtain ⟨t, ht, htable', hphase⟩ : ∃ t, step s (.alloc n) = some t ∧
        t.refcounts = s.refcounts ∧ t.phase = Function.update s.phase n .live :=
      ⟨_, if_pos (hfree n (Nat.le_refl n)), rfl, rfl⟩
    obtain ⟨u, hu, htable'', hphase'⟩ : ∃ u, step t (.retain n) = some u ∧
        u.refcounts = rootRetain t.refcounts n ∧ u.phase = t.phase :=
      ⟨_, if_pos (by rw [hphase, Function.update_self]), rfl, rfl⟩
    refine ⟨u, ?_, ?_, fun o ho => ?_⟩
    · rw [owned_succ]
      exact exec_append.mpr ⟨t, exec_append.mpr ⟨s, hs, by rw [exec, ht]; rfl⟩,
        by rw [exec, hu]; rfl⟩
    · rw [htable'', htable', rootRetain, hnew]
      dsimp only
      rw [if_pos hlength, htable, List.range_succ, List.map_append]
      rfl
    · have hne : o ≠ n := by omega
      rw [hphase', hphase, Function.update_of_ne hne]
      exact hfree o (by omega)

/-- The second owner of an object that comes when the table is full is dropped. -/
lemma owned_dropped {n : ℕ} (hn : n = maxRefcounted) :
    ∃ s : Tables ℕ Unit, exec step (start fun _ => none) (owned (n + 1)) = some s ∧
      rootRetainCount s.refcounts n = 1 ∧ s.owners n = 2 ∧
      ¬NothingDropped (fun _ => none) (owned (n + 1)) := by
  obtain ⟨s, hs, htable, hfree⟩ := exec_owned hn.le
  have hnone : find same s.refcounts n = none := by
    refine find_eq_none_iff.mpr fun e he => ?_
    rw [htable] at he
    obtain ⟨o, ho, rfl⟩ := List.mem_map.mp he
    exact decide_eq_false (Nat.ne_of_lt (List.mem_range.mp ho))
  have hfull : ¬Arc.HasRoom s.refcounts n := by
    rw [Arc.HasRoom, hnone, htable, List.length_map, List.length_range, hn]
    simp
  obtain ⟨t, ht, htable', hphase, howners⟩ : ∃ t, step s (.alloc n) = some t ∧
      t.refcounts = s.refcounts ∧ t.phase n = .live ∧ t.owners n = 1 :=
    ⟨_, if_pos (hfree n (Nat.le_refl _)), rfl, by simp, by simp⟩
  obtain ⟨u, hu, htable'', howners'⟩ : ∃ u, step t (.retain n) = some u ∧
      u.refcounts = rootRetain t.refcounts n ∧ u.owners n = t.owners n + 1 :=
    ⟨_, if_pos hphase, rfl, by simp⟩
  have hrun : exec step (start fun _ => none) (owned n ++ [Op.alloc n]) = some t :=
    exec_append.mpr ⟨s, hs, by rw [exec, ht]; rfl⟩
  refine ⟨u, ?_, ?_, by rw [howners', howners], fun hnothing => ?_⟩
  · rw [owned_succ]
    exact exec_append.mpr ⟨t, hrun, by rw [exec, hu]; rfl⟩
  · rw [htable'', htable', rootRetain_eq_self hfull, rootRetainCount, hnone]
    rfl
  · rw [NothingDropped, owned_succ] at hnothing
    have hlast : Reflected t (.retain n) := hnothing.last hrun
    rw [Reflected, retainReflected_iff, htable'] at hlast
    exact hfull hlast

/-- The second owner of the 4097th object is dropped. -/
theorem not_nothingDropped :
    ∃ s : Tables ℕ Unit, exec step (start fun _ => none) (owned (4096 + 1)) = some s ∧
      rootRetainCount s.refcounts 4096 = 1 ∧ s.owners 4096 = 2 ∧
      ¬NothingDropped (fun _ => none) (owned (4096 + 1)) :=
  owned_dropped rfl

end Asteros.Objc.SideTables
