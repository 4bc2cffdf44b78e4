import Asteros.Lib.Transition
import Asteros.Lib.Unordered

set_option autoImplicit false

/-!
# Retain counts and autorelease pools

`arc.c` and `autorelease.c`: a side table has the retains of each object beyond the first, and one
stack for the process has the objects that pools will release. `objc_autoreleasePoolPop` releases
the entries of its pool from the top down, and lowers the top of the stack only behind the last;
every release can send `dealloc`, which runs code of the program before the release goes on.

A state says what is being run: the pools that are open, the pops and the deallocs that are on
their way, the innermost first. Pools are pushed and popped in a nested way, so that the marks of
`g_pool_marks` are those of the open pools. An object is live from its allocation until it is sent
`dealloc`; what is done to an object that is not live is undefined, and a table that is full aborts
the process, except the side table, which then drops the retain.

## Main definitions

* `rootRetain`, `rootRelease` — the side table.
* `Runtime`, `step` — the process.

## Main results

* `rootRetainCount_rootRetain`, `rootRetainCount_rootRelease` — what the side table counts.
-/

namespace Asteros.Objc.Arc

open KeyedList Unordered

variable {Obj Loc : Type} [DecidableEq Obj] [DecidableEq Loc]

/-! ## The side table -/

/-- `MAX_REFCOUNTED`. -/
def maxRefcounted : ℕ := 4096

/-- `MAX_AUTORELEASED`. -/
def maxAutoreleased : ℕ := 4096

/-- `MAX_POOL_DEPTH`. -/
def maxPoolDepth : ℕ := 256

/-- `g_refcounts`: objects with their `extra`. -/
abbrev Refcounts (Obj : Type) := List (Obj × ℕ)

/-- `_objc_rootRetain`. -/
def rootRetain (table : Refcounts Obj) (obj : Obj) : Refcounts Obj :=
  match find same table obj with
  | some extra => replace same obj (extra + 1) table
  | none => if table.length < maxRefcounted then table ++ [(obj, 1)] else table

/-- `_objc_rootRetainCount`. -/
def rootRetainCount (table : Refcounts Obj) (obj : Obj) : ℕ :=
  1 + (find same table obj).getD 0

/-- `_objc_rootRelease`, and whether it sends `dealloc`. -/
def rootRelease (table : Refcounts Obj) (obj : Obj) : Refcounts Obj × Bool :=
  match find same table obj with
  | some (extra + 1) => (replace same obj extra table, false)
  | some 0 => (swapErase same obj table, true)
  | none => (table, true)

/-- There is an entry for the object, or room for one. -/
def HasRoom (table : Refcounts Obj) (obj : Obj) : Prop :=
  (find same table obj).isSome ∨ table.length < maxRefcounted

instance (table : Refcounts Obj) (obj : Obj) : Decidable (HasRoom table obj) :=
  inferInstanceAs (Decidable (_ ∨ _))

/-! ## The process -/

/-- What is being run. -/
inductive Frame (Obj : Type) where
  /-- A pool is open, with its mark. -/
  | pool (mark : ℕ)
  /-- The loop of `objc_autoreleasePoolPop` has the entries from the mark up to `next` before it. -/
  | popping (next mark : ℕ)
  /-- The `dealloc` of an object. -/
  | dealloc (obj : Obj)
  deriving DecidableEq

/-- A pool that is open, or on its way to be popped. -/
def Frame.isPool : Frame Obj → Bool
  | .pool _ | .popping _ _ => true
  | .dealloc _ => false

/-- The process. The last four fields are its history, for each object since its allocation. -/
structure Runtime (Obj Loc : Type) where
  /-- `g_refcounts`. -/
  refcounts : Refcounts Obj
  /-- `g_autorelease_stack`. -/
  stack : ℕ → Option Obj
  /-- `g_autorelease_top`. -/
  top : ℕ
  /-- What is being run, the innermost first. -/
  frames : List (Frame Obj)
  /-- The strong locations of the program. -/
  locations : Loc → Option Obj
  /-- The object was allocated, and was not sent `dealloc`. -/
  live : Obj → Bool
  /-- The object was allocated. -/
  used : Obj → Bool
  /-- How often it was retained by the program. -/
  retains : Obj → ℕ
  /-- How often it was released by the program. -/
  releases : Obj → ℕ
  /-- How often it was autoreleased. -/
  autoreleases : Obj → ℕ

/-- At first. -/
def init : Runtime Obj Loc where
  refcounts := []
  stack _ := none
  top := 0
  frames := []
  locations _ := none
  live _ := false
  used _ := false
  retains _ := 0
  releases _ := 0
  autoreleases _ := 0

/-- What the program does, and what the loop of a pop does. -/
inductive Action (Obj Loc : Type) where
  /-- An object is allocated. -/
  | alloc (obj : Obj)
  /-- `objc_retain`. -/
  | retain (obj : Option Obj)
  /-- `objc_release`. -/
  | release (obj : Option Obj)
  /-- `objc_autorelease`. -/
  | autorelease (obj : Option Obj)
  /-- `objc_autoreleaseReturnValue`. -/
  | autoreleaseReturnValue (obj : Option Obj)
  /-- `objc_retainAutoreleasedReturnValue`. -/
  | retainAutoreleasedReturnValue (obj : Option Obj)
  /-- `objc_storeStrong`. -/
  | storeStrong (location : Option Loc) (value : Option Obj)
  /-- `objc_autoreleasePoolPush`. -/
  | push
  /-- `objc_autoreleasePoolPop` for the innermost pool, up to its loop. -/
  | pop
  /-- A pass of the loop of a pop, or what is behind it. -/
  | drain
  /-- A `dealloc` frees its object and returns. -/
  | endDealloc
  deriving DecidableEq

namespace Runtime

/-- Code of the program is running. -/
def inProgram (s : Runtime Obj Loc) : Bool :=
  match s.frames with
  | .popping _ _ :: _ => false
  | _ => true

/-- `g_pool_depth`. -/
def poolDepth (s : Runtime Obj Loc) : ℕ :=
  s.frames.countP Frame.isPool

/-- The message `retain`. -/
def sendRetain (s : Runtime Obj Loc) (obj : Obj) : Runtime Obj Loc :=
  { s with refcounts := rootRetain s.refcounts obj }

/-- The message `release`, up to the `dealloc` that it may send. -/
def sendRelease (s : Runtime Obj Loc) (obj : Obj) : Runtime Obj Loc :=
  let released := rootRelease s.refcounts obj
  if released.2 then
    { s with
      refcounts := released.1
      live := Function.update s.live obj false
      frames := .dealloc obj :: s.frames }
  else { s with refcounts := released.1 }

/-- A retain of the program is counted. -/
def countRetain (s : Runtime Obj Loc) (obj : Obj) : Runtime Obj Loc :=
  { s with retains := Function.update s.retains obj (s.retains obj + 1) }

/-- A release of the program is counted. -/
def countRelease (s : Runtime Obj Loc) (obj : Obj) : Runtime Obj Loc :=
  { s with releases := Function.update s.releases obj (s.releases obj + 1) }

/-- `objc_retain`. -/
def retain (s : Runtime Obj Loc) : Option Obj → Option (Runtime Obj Loc)
  | none => some s
  | some obj => if s.live obj then some ((s.sendRetain obj).countRetain obj) else none

/-- `objc_release`. -/
def release (s : Runtime Obj Loc) : Option Obj → Option (Runtime Obj Loc)
  | none => some s
  | some obj => if s.live obj then some ((s.countRelease obj).sendRelease obj) else none

/-- `_objc_rootAutorelease`. -/
def rootAutorelease (s : Runtime Obj Loc) (obj : Obj) : Option (Runtime Obj Loc) :=
  if s.top < maxAutoreleased then
    some { s with
      stack := Function.update s.stack s.top (some obj)
      top := s.top + 1
      autoreleases := Function.update s.autoreleases obj (s.autoreleases obj + 1) }
  else none

/-- `objc_autorelease`. -/
def autorelease (s : Runtime Obj Loc) : Option Obj → Option (Runtime Obj Loc)
  | none => some s
  | some obj => if s.live obj then s.rootAutorelease obj else none

/-- The test of `objc_autorelease_try_reclaim_last`. -/
def isLast (s : Runtime Obj Loc) (obj : Obj) : Bool :=
  decide (0 < s.top ∧ s.stack (s.top - 1) = some obj)

/-- `objc_retainAutoreleasedReturnValue`. -/
def retainAutoreleasedReturnValue (s : Runtime Obj Loc) :
    Option Obj → Option (Runtime Obj Loc)
  | none => some s
  | some obj =>
    if s.live obj then
      if s.isLast obj then
        some (({ s with top := s.top - 1 }.sendRetain obj).countRetain obj)
      else s.retain (some obj)
    else none

/-- `objc_storeStrong`. -/
def storeStrong (s : Runtime Obj Loc) (location : Option Loc) (value : Option Obj) :
    Option (Runtime Obj Loc) :=
  let old := location.bind s.locations
  if value = old then some s
  else
    match s.retain value with
    | none => none
    | some s =>
      let s := match location with
        | some l => { s with locations := Function.update s.locations l value }
        | none => s
      s.release old

end Runtime

/-- A step. -/
def step (s : Runtime Obj Loc) : Action Obj Loc → Option (Runtime Obj Loc)
  | .alloc obj =>
    if s.inProgram && !s.used obj then
      some { s with
        live := Function.update s.live obj true
        used := Function.update s.used obj true
        retains := Function.update s.retains obj 0
        releases := Function.update s.releases obj 0
        autoreleases := Function.update s.autoreleases obj 0 }
    else none
  | .retain obj => if s.inProgram then s.retain obj else none
  | .release obj => if s.inProgram then s.release obj else none
  | .autorelease obj | .autoreleaseReturnValue obj =>
    if s.inProgram then s.autorelease obj else none
  | .retainAutoreleasedReturnValue obj =>
    if s.inProgram then s.retainAutoreleasedReturnValue obj else none
  | .storeStrong location value => if s.inProgram then s.storeStrong location value else none
  | .push =>
    if s.inProgram && decide (s.poolDepth < maxPoolDepth) then
      some { s with frames := .pool s.top :: s.frames }
    else none
  | .pop =>
    match s.frames with
    | .pool mark :: frames => some { s with frames := .popping s.top mark :: frames }
    | _ => none
  | .drain =>
    match s.frames with
    | .popping next mark :: frames =>
      if mark < next then
        let s := { s with frames := .popping (next - 1) mark :: frames }
        match s.stack (next - 1) with
        | some obj => if s.live obj then some (s.sendRelease obj) else none
        | none => some s
      else some { s with top := mark, frames := frames }
    | _ => none
  | .endDealloc =>
    match s.frames with
    | .dealloc _ :: frames => some { s with frames := frames }
    | _ => none

/-! ## What the side table counts -/

section

variable {table : Refcounts Obj} {obj other : Obj}

/-- The test of the table is the equality. -/
lemma same_eq_true : same obj other = true ↔ obj = other := decide_eq_true_iff

/-- A retain keeps the entries apart. -/
lemma distinct_rootRetain (h : Distinct same table) : Distinct same (rootRetain table obj) := by
  rw [rootRetain]
  split
  · exact h.replace _ _
  · next hnone =>
    split
    · exact h.concat hnone _
    · exact h

/-- A release keeps the entries apart. -/
lemma distinct_rootRelease (h : Distinct same table) :
    Distinct same (rootRelease table obj).1 := by
  rw [rootRelease]
  split
  · exact h.replace _ _
  · exact distinct_swapErase lawful_same h _
  · exact h

/-- **A retain counts**, where there is room. -/
theorem rootRetainCount_rootRetain (hroom : HasRoom table obj) (other : Obj) :
    rootRetainCount (rootRetain table obj) other =
      rootRetainCount table other + if obj = other then 1 else 0 := by
  rw [rootRetainCount, rootRetainCount, rootRetain]
  cases hfind : find same table obj with
  | some extra =>
    dsimp only
    rw [find_replace lawful_same, hfind]
    by_cases ho : obj = other
    · subst ho
      rw [if_pos ⟨same_eq_true.2 rfl, rfl⟩, if_pos rfl, hfind]
      simp only [Option.getD_some]
      omega
    · rw [if_neg (fun h => ho (same_eq_true.1 h.1)), if_neg ho, Nat.add_zero]
  | none =>
    have hlt : table.length < maxRefcounted := by
      rcases hroom with hsome | hlt
      · rw [hfind] at hsome
        cases hsome
      · exact hlt
    dsimp only
    rw [if_pos hlt, find_append]
    by_cases ho : obj = other
    · subst ho
      rw [hfind, if_pos rfl]
      simp [find, same]
    · rw [if_neg ho, Nat.add_zero]
      simp [find, same, ho]

/-- A release sends `dealloc` exactly if the count is 1. -/
lemma rootRelease_sends : (rootRelease table obj).2 = true ↔ rootRetainCount table obj = 1 := by
  rw [rootRelease, rootRetainCount]
  split
  · next extra hfind =>
    rw [hfind]
    simp
  · next hfind =>
    rw [hfind]
    simp
  · next hfind =>
    rw [hfind]
    simp

/-- **A release counts**, of the object until it is sent `dealloc`. -/
theorem rootRetainCount_rootRelease (h : Distinct same table) (other : Obj)
    (hkeep : obj = other → (rootRelease table obj).2 = false) :
    rootRetainCount (rootRelease table obj).1 other + (if obj = other then 1 else 0) =
      rootRetainCount table other := by
  by_cases ho : obj = other
  · subst ho
    have hsends := hkeep rfl
    rw [if_pos rfl, rootRetainCount, rootRetainCount]
    revert hsends
    rw [rootRelease]
    split
    · next extra hfind =>
      intro _
      rw [find_replace lawful_same, hfind, if_pos ⟨same_eq_true.2 rfl, rfl⟩]
      simp only [Option.getD_some]
      omega
    · exact nofun
    · exact nofun
  · rw [if_neg ho, Nat.add_zero, rootRetainCount, rootRetainCount, rootRelease]
    split
    · rw [find_replace lawful_same, if_neg fun hs => ho (same_eq_true.1 hs.1)]
    · rw [find_swapErase lawful_same h, if_neg fun hs => ho (same_eq_true.1 hs)]
    · rfl

end

end Asteros.Objc.Arc
