import Asteros.Objc.Arc
import Mathlib.Data.List.Nodup

set_option autoImplicit false

/-!
# Which pool releases what

The stack of `autorelease.c`, with entries that are told apart even if they are for the same object.
A pool is a mark in the stack. `objc_autoreleasePoolPop` goes from the top that it finds down to the
mark and releases the entries; a release can run code of the program, which autoreleases and reclaims
objects and has pools of its own, and when that has returned the loop goes on with the entry below.
Only behind the loop the top goes down, to the mark. The token of a pool can be that of one that
encloses others which were not popped; their marks go with it.

What a release runs is a sequence of calls that ends before the loop goes on, with the pools that it
pushed popped: calls are properly nested.

## Main definitions

* `Stack`, `step` — the stack and one call, or one pass of the loop.
* `DrainsOwn` — what is claimed of a state.
* `Balanced` — the condition on a step.

## Main results

* `Nested.drop` — the frames behind a pop are nested below its mark.
-/

namespace Asteros.Objc.Pools

open Arc (maxAutoreleased maxPoolDepth)

variable {Obj : Type}

/-! ## The stack -/

/-- A pool that is open, or a pop that is on its way. -/
inductive Frame where
  /-- A pool with its mark in `g_pool_marks`. -/
  | pool (id mark : ℕ)
  /-- A pop of the pool that has so many others above it. The loop of the pop has the entries from
  the mark up to `next` before it; `last` is the top that it began with. Code of the program is
  running if it is in a release. -/
  | popping (id skipped mark next last : ℕ) (running : Bool)
  deriving DecidableEq

/-- A pool. -/
def Frame.isPool : Frame → Bool
  | .pool .. => true
  | .popping .. => false

/-- The mark of a pool. -/
def Frame.mark? : Frame → Option ℕ
  | .pool _ mark => some mark
  | .popping .. => none

/-- The number of a pool. -/
def Frame.id? : Frame → Option ℕ
  | .pool id _ => some id
  | .popping .. => none

/-- How an entry is consumed. -/
inductive How where
  /-- By a reclaim. -/
  | reclaimed
  /-- By a release, in the pop of a pool. -/
  | released (id : ℕ)
  deriving DecidableEq

/-- The stack, and its history. -/
structure Stack (Obj : Type) where
  /-- `g_autorelease_stack`, with the number of each entry. -/
  slots : ℕ → Option (Obj × ℕ)
  /-- `g_autorelease_top`. -/
  top : ℕ
  /-- The pools and the pops, the innermost first. -/
  frames : List Frame
  /-- History: how many pools were pushed. -/
  pushed : ℕ
  /-- History: how many entries were added. -/
  added : ℕ
  /-- History: the pools that were there when an entry was added. -/
  home : ℕ → List ℕ
  /-- History: the entries that were consumed. -/
  consumed : List (ℕ × How)

/-- At first. -/
def init : Stack Obj where
  slots _ := none
  top := 0
  frames := []
  pushed := 0
  added := 0
  home _ := []
  consumed := []

/-- A call of the program, or a step of a pop. -/
inductive Action (Obj : Type) where
  /-- `_objc_rootAutorelease`. -/
  | autorelease (obj : Obj)
  /-- `objc_autorelease_try_reclaim_last`. -/
  | reclaim (obj : Obj)
  /-- `objc_autoreleasePoolPush`. -/
  | push
  /-- `objc_autoreleasePoolPop`, up to its loop, for the pool that has so many others above it. -/
  | pop (skipped : ℕ)
  /-- A pass of the loop of a pop, up to the code that the release runs, or what is behind the
  loop. -/
  | drain
  /-- The code that a release runs returns. -/
  | ret
  deriving DecidableEq

namespace Stack

variable (s : Stack Obj)

/-- Code of the program is running. -/
def inProgram : Bool :=
  match s.frames with
  | .popping _ _ _ _ _ running :: _ => running
  | _ => true

/-- `g_pool_depth`. -/
def poolDepth : ℕ := s.frames.countP Frame.isPool

/-- The number of the entry at a position. -/
def serial (p : ℕ) : Option ℕ := (s.slots p).map Prod.snd

/-- The test of `objc_autorelease_try_reclaim_last`. -/
def isLast [DecidableEq Obj] (obj : Obj) : Bool :=
  decide (0 < s.top ∧ (s.slots (s.top - 1)).map Prod.fst = some obj)

/-- The entry at a position is consumed. -/
def consume (p : ℕ) (how : How) : List (ℕ × How) :=
  (s.serial p).toList.map (fun n => (n, how)) ++ s.consumed

end Stack

/-- A step; `none` if the process aborts, or the call is not one of a properly nested sequence. -/
def step [DecidableEq Obj] (s : Stack Obj) : Action Obj → Option (Stack Obj)
  | .autorelease obj =>
    if s.inProgram && decide (s.top < maxAutoreleased) then
      some { s with
        slots := Function.update s.slots s.top (some (obj, s.added))
        top := s.top + 1
        added := s.added + 1
        home := Function.update s.home s.added (s.frames.filterMap Frame.id?) }
    else none
  | .reclaim obj =>
    if s.inProgram then
      if s.isLast obj then
        some { s with
          top := s.top - 1
          consumed := s.consume (s.top - 1) .reclaimed }
      else some s
    else none
  | .push =>
    if s.inProgram && decide (s.poolDepth < maxPoolDepth) then
      some { s with frames := .pool s.pushed s.top :: s.frames, pushed := s.pushed + 1 }
    else none
  | .pop skipped =>
    if (s.frames.take skipped).all Frame.isPool then
      match s.frames[skipped]? with
      | some (.pool id mark) =>
        some { s with frames := .popping id skipped mark s.top s.top false :: s.frames }
      | _ => none
    else none
  | .drain =>
    match s.frames with
    | .popping id skipped mark next last false :: frames =>
      if mark < next then
        some { s with
          frames := .popping id skipped mark (next - 1) last true :: frames
          consumed := s.consume (next - 1) (.released id) }
      else some { s with top := mark, frames := frames.drop (skipped + 1) }
    | _ => none
  | .ret =>
    match s.frames with
    | .popping id skipped mark next last true :: frames =>
      some { s with frames := .popping id skipped mark next last false :: frames }
    | _ => none

/-! ## What is claimed -/

/-- The loop of a pop has released the entry at a position. -/
def Frame.drained (p : ℕ) : Frame → Bool
  | .pool .. => false
  | .popping _ _ _ next last _ => decide (next ≤ p ∧ p < last)

/-- The loop of one of the pops has. -/
def drained (frames : List Frame) (p : ℕ) : Bool := frames.any (Frame.drained p)

namespace Stack

variable (s : Stack Obj)

/-- `g_pool_marks`, up to `g_pool_depth`, the innermost first. -/
def marks : List ℕ := s.frames.filterMap Frame.mark?

/-- The positions of the entries that are yet to be released. -/
def waiting : List ℕ := (List.range s.top).filter fun p => !drained s.frames p

/-- These entries. -/
def pending : List ℕ := s.waiting.filterMap s.serial

end Stack

/-- Pools drain exactly their own entries. -/
structure DrainsOwn (s : Stack Obj) : Prop where
  /-- The marks do not decrease. -/
  marks_sorted : s.marks.Pairwise (· ≥ ·)
  /-- They do not exceed the top. -/
  marks_le : ∀ mark ∈ s.marks, mark ≤ s.top
  /-- Every entry that was added was consumed once, or is yet to be: none is lost, none is consumed
  twice, and none comes back. -/
  accounted : (s.consumed.map Prod.fst ++ s.pending).Perm (List.range s.added)
  /-- A pop releases entries that were added when its pool was there: its own, or those of a pool
  that it encloses. -/
  own : ∀ n id, (n, .released id) ∈ s.consumed → id ∈ s.home n

/-- The part of the stack that belongs to the code that is running: what lies above the mark of the
innermost pool, or above the top that the innermost pop began with. -/
def base : List Frame → ℕ
  | [] => 0
  | .pool _ mark :: _ => mark
  | .popping _ _ _ _ last _ :: _ => last

/-- The condition: a reclaim takes an entry that was added since the innermost pool was pushed or,
in a release, since the pop of it began; and when a pop is over, what its releases have added outside
of pools of their own has been reclaimed. -/
def Balanced [DecidableEq Obj] (s : Stack Obj) : Action Obj → Prop
  | .reclaim obj => s.isLast obj = true → base s.frames < s.top
  | .drain =>
    match s.frames with
    | .popping _ _ mark next last false :: _ => next ≤ mark → s.top = last
    | _ => True
  | _ => True

instance [DecidableEq Obj] (s : Stack Obj) (a : Action Obj) : Decidable (Balanced s a) := by
  unfold Balanced
  split
  · infer_instance
  · split <;> infer_instance
  · infer_instance

/-! ## Frames -/

/-- The marks and the loops, from the top of the stack down. -/
def Nested : List Frame → ℕ → Prop
  | [], _ => True
  | .pool _ mark :: frames, top => mark ≤ top ∧ Nested frames mark
  | .popping id skipped mark next last running :: frames, top =>
    mark ≤ next ∧ next ≤ last ∧ last ≤ top ∧ (running = true → next < last) ∧
      (∃ pools rest, frames = pools ++ Frame.pool id mark :: rest ∧ pools.length = skipped ∧
        ∀ f ∈ pools, f.isPool = true) ∧ Nested frames last

section

variable {frames pools rest : List Frame} {top top' p id mark : ℕ}

/-- The part of the code that is running begins below the top. -/
lemma Nested.base_le (h : Nested frames top) : base frames ≤ top := by
  cases frames with
  | nil => exact Nat.zero_le _
  | cons f frames =>
    cases f with
    | pool id mark => exact h.1
    | popping id skipped mark next last running => exact h.2.2.1

/-- The top can be anywhere above it. -/
lemma Nested.move (h : Nested frames top) (hbase : base frames ≤ top') : Nested frames top' := by
  cases frames with
  | nil => trivial
  | cons f frames =>
    cases f with
    | pool id mark => exact ⟨hbase, h.2⟩
    | popping id skipped mark next last running => exact ⟨h.1, h.2.1, hbase, h.2.2.2⟩

/-- What was released lies below it. -/
lemma Nested.drained_lt (h : Nested frames top) (hp : drained frames p = true) :
    p < base frames := by
  induction frames generalizing top with
  | nil => cases hp
  | cons f frames ih =>
    rw [drained, List.any_cons, Bool.or_eq_true] at hp
    cases f with
    | pool id mark =>
      rcases hp with hp | hp
      · cases hp
      · exact (ih h.2 hp).trans_le h.2.base_le
    | popping id skipped mark next last running =>
      obtain ⟨-, -, -, -, -, hrest⟩ := h
      rcases hp with hp | hp
      · exact (of_decide_eq_true hp).2
      · exact (ih hrest hp).trans_le hrest.base_le

/-- So do the marks, which do not decrease. -/
lemma Nested.marks (h : Nested frames top) :
    (frames.filterMap Frame.mark?).Pairwise (· ≥ ·) ∧
      ∀ mark ∈ frames.filterMap Frame.mark?, mark ≤ base frames := by
  induction frames generalizing top with
  | nil => exact ⟨.nil, nofun⟩
  | cons f frames ih =>
    cases f with
    | pool id mark =>
      obtain ⟨hsorted, hle⟩ := ih h.2
      have hbelow : ∀ m ∈ frames.filterMap Frame.mark?, m ≤ mark := fun m hm =>
        (hle m hm).trans h.2.base_le
      rw [List.filterMap_cons_some (show (Frame.pool id mark).mark? = some mark from rfl)]
      refine ⟨List.pairwise_cons.mpr ⟨hbelow, hsorted⟩, fun m hm => ?_⟩
      rcases List.mem_cons.mp hm with rfl | hm
      · exact Nat.le_refl _
      · exact hbelow m hm
    | popping id skipped mark next last running =>
      obtain ⟨-, -, -, -, -, hrest⟩ := h
      obtain ⟨hsorted, hle⟩ := ih hrest
      rw [List.filterMap_cons_none rfl]
      exact ⟨hsorted, fun m hm => (hle m hm).trans hrest.base_le⟩

/-- Pools are not in the way of what lies below them. -/
lemma drained_append (hpools : ∀ f ∈ pools, f.isPool = true) :
    drained (pools ++ Frame.pool id mark :: rest) p = drained rest p := by
  have hnone : pools.any (Frame.drained p) = false := by
    rw [List.any_eq_false]
    intro f hf
    cases f with
    | pool => exact Bool.false_ne_true
    | popping => cases hpools _ hf
  rw [drained, List.any_append, hnone, Bool.false_or, List.any_cons]
  rfl

/-- **The frames below a pool are nested below its mark.** -/
lemma Nested.drop (h : Nested (pools ++ Frame.pool id mark :: rest) top)
    (hpools : ∀ f ∈ pools, f.isPool = true) : Nested rest mark := by
  induction pools generalizing top with
  | nil => exact h.2
  | cons f pools ih =>
    cases f with
    | pool id' mark' => exact ih h.2 fun f hf => hpools f (List.mem_cons_of_mem _ hf)
    | popping => cases hpools _ List.mem_cons_self

end

end Asteros.Objc.Pools
