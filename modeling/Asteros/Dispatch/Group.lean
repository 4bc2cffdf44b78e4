import Asteros.Lib.Transition
import Mathlib.Algebra.Ring.Nat
import Mathlib.Data.Int.Notation
import Mathlib.Logic.Function.Basic

set_option autoImplicit false

/-!
# Groups

`dispatch_group.c`: a group is a count of what is outstanding and a list of notifies, which are
pushed to their queues when the count returns to 0. The leave that brings it to 0 detaches the list
under the lock and pushes it after the lock; a notify that finds the count at 0 is pushed at once.
Any number of threads enter, leave, submit, notify and wait; the steps are the sections under the
lock, the pushes, and the moments of `pthread_cond_wait` and `pthread_cond_timedwait` in which the
lock is not held.

Enters are numbered, and a leave says which of them it matches; the program never leaves more often
than it enters. The leave of a `dispatch_group_async` is one of these.

## Main definitions

* `Group` — the group, and what the sections do to it.
* `Group.step` — a step of a thread.
* `Group.Step` — the steps, one by one.

## Main results

* `Group.Step.of_step` — what a step can do.
-/

namespace Asteros.Dispatch

/-! ## The data -/

/-- `struct dispatch_group_notify`; the number tells the allocations apart. -/
structure Notify where
  /-- Which notify it is, with its `func` and `context`. -/
  id : ℕ
  /-- `queue`. -/
  queue : ℕ
  deriving DecidableEq

/-- `struct dispatch_group_s`. -/
structure Group where
  /-- `count`. -/
  count : ℤ
  /-- The list at `notify_head`. -/
  notifyHead : List Notify
  deriving DecidableEq

namespace Group

/-- `dispatch_group_create`. -/
def create : Group where
  count := 0
  notifyHead := []

/-- `dispatch_group_enter`. -/
def enter (g : Group) : Group := { g with count := g.count + 1 }

/-- The locked section of `dispatch_group_leave`, with the list `pending`. -/
def leave (g : Group) : Group × List Notify :=
  let g := { g with count := g.count - 1 }
  if g.count = 0 then ({ g with notifyHead := [] }, g.notifyHead) else (g, [])

/-- The locked section of `dispatch_group_notify`, with `fire_now`. -/
def notify (g : Group) (node : Notify) : Group × Bool :=
  let fireNow := decide (g.count = 0)
  if fireNow then (g, true) else ({ g with notifyHead := node :: g.notifyHead }, false)

/-- `DISPATCH_TIME_NOW`. -/
def dispatchTimeNow : ℕ := 0

/-- `DISPATCH_TIME_FOREVER`. -/
def dispatchTimeForever : ℕ := 2 ^ 64 - 1

/-- Where a thread is. -/
inductive Pc where
  /-- In code of the client, or in an item. -/
  | client
  /-- In the loop of `dispatch_group_leave`, with the rest of `pending`. -/
  | submitting (pending : List Notify)
  /-- In `dispatch_group_notify`, before the push of a notify that is to fire now. -/
  | firing (node : Notify)
  /-- In `dispatch_group_async_f`, between the enter and the push. -/
  | pushing (enter queue : ℕ)
  /-- In the loop of `pthread_cond_wait`, or of `pthread_cond_timedwait` where `timed`. -/
  | inCond (timed : Bool) (gen0 : ℕ)
  /-- Behind that loop, before the lock is taken again. -/
  | relocking (timed timedOut : Bool)
  /-- `dispatch_group_wait` has returned. -/
  | returned (result : ℤ)
  deriving DecidableEq

/-- A group and the threads that use it. The last fields are the history. -/
structure State where
  /-- The group. -/
  group : Group
  /-- `gen` of its condition variable. -/
  gen : ℕ
  /-- Where the threads are. -/
  threads : List Pc
  /-- The enters that no leave has matched. -/
  entered : List ℕ
  /-- The number of the next enter. -/
  nextEnter : ℕ
  /-- The number of the next notify. -/
  nextNotify : ℕ
  /-- The notifies that were registered. -/
  registered : List Notify
  /-- For each notify the enters that were unmatched when it was registered. -/
  enteredBefore : ℕ → List ℕ
  /-- The notifies that were pushed to their queues. -/
  submitted : List Notify
  /-- The items of `dispatch_group_async` that were pushed: the enter and the queue. -/
  items : List (ℕ × ℕ)

/-- A new group, and `n` threads. -/
def init (n : ℕ) : State where
  group := create
  gen := 0
  threads := List.replicate n .client
  entered := []
  nextEnter := 0
  nextNotify := 0
  registered := []
  enteredBefore _ := []
  submitted := []
  items := []

/-! ## The steps -/

/-- A step of a schedule. -/
inductive Action where
  /-- `dispatch_group_enter`. -/
  | enter (t : ℕ)
  /-- `dispatch_group_leave` for an enter, up to the end of the locked section. -/
  | leave (t e : ℕ)
  /-- The next push of the loop of `dispatch_group_leave`, or its end. -/
  | submit (t : ℕ)
  /-- `dispatch_group_async_f`, up to the end of its enter. -/
  | async (t queue : ℕ)
  /-- The push of `dispatch_group_async_f`. -/
  | push (t : ℕ)
  /-- `dispatch_group_notify`, up to the end of the locked section. -/
  | notify (t queue : ℕ)
  /-- The push of `dispatch_group_notify`. -/
  | fire (t : ℕ)
  /-- `dispatch_group_wait`, up to where it gives the lock back. -/
  | wait (t timeout : ℕ)
  /-- The loop of the condition variable sees a new generation. -/
  | wake (t : ℕ)
  /-- The loop of `pthread_cond_timedwait` sees that the deadline is over. -/
  | timeOut (t : ℕ)
  /-- `dispatch_group_wait` has the lock again, up to where it gives it back. -/
  | recheck (t : ℕ)
  /-- The client goes on after `dispatch_group_wait`. -/
  | resume (t : ℕ)
  deriving DecidableEq

/-- A thread moves on. -/
def State.goto (s : State) (t : ℕ) (pc : Pc) : State :=
  { s with threads := s.threads.set t pc }

/-- A thread enters. -/
def State.enter (s : State) : State :=
  { s with
    group := s.group.enter
    entered := s.entered ++ [s.nextEnter]
    nextEnter := s.nextEnter + 1 }

/-- Under the lock: the predicate of `dispatch_group_wait`, and what follows it. -/
def State.test (s : State) (timed : Bool) : Pc :=
  if 0 < s.group.count then .inCond timed s.gen else .returned 0

/-- What `dispatch_group_wait` finds under the lock it takes first. -/
def State.wait (s : State) (timeout : ℕ) : Pc :=
  if timeout = dispatchTimeForever then s.test false
  else if timeout = dispatchTimeNow then .returned (if 0 < s.group.count then -1 else 0)
  else s.test true

/-- What `dispatch_group_wait` finds under the lock when the condition variable gives it back. -/
def State.recheck (s : State) (timed timedOut : Bool) : Pc :=
  if timed && timedOut && decide (0 < s.group.count) then .returned (-1) else s.test timed

/-- A step. A leave matches an enter that no leave has matched. -/
def step (s : State) : Action → Option State
  | .enter t =>
    match s.threads[t]? with
    | some .client => some s.enter
    | _ => none
  | .leave t e =>
    match s.threads[t]? with
    | some .client =>
      if e ∈ s.entered then
        let left := s.group.leave
        some ({ s with
          group := left.1
          gen := if left.1.count = 0 then (s.gen + 1) % 2 ^ 32 else s.gen
          entered := s.entered.erase e }.goto t (.submitting left.2))
      else none
    | _ => none
  | .submit t =>
    match s.threads[t]? with
    | some (.submitting []) => some (s.goto t .client)
    | some (.submitting (node :: rest)) =>
      some ({ s with submitted := s.submitted ++ [node] }.goto t (.submitting rest))
    | _ => none
  | .async t queue =>
    match s.threads[t]? with
    | some .client => some (s.enter.goto t (.pushing s.nextEnter queue))
    | _ => none
  | .push t =>
    match s.threads[t]? with
    | some (.pushing e queue) => some ({ s with items := s.items ++ [(e, queue)] }.goto t .client)
    | _ => none
  | .notify t queue =>
    match s.threads[t]? with
    | some .client =>
      let node : Notify := ⟨s.nextNotify, queue⟩
      let noted := s.group.notify node
      some ({ s with
        group := noted.1
        nextNotify := s.nextNotify + 1
        registered := s.registered ++ [node]
        enteredBefore := Function.update s.enteredBefore node.id s.entered }.goto t
          (if noted.2 then .firing node else .client))
    | _ => none
  | .fire t =>
    match s.threads[t]? with
    | some (.firing node) => some ({ s with submitted := s.submitted ++ [node] }.goto t .client)
    | _ => none
  | .wait t timeout =>
    match s.threads[t]? with
    | some .client => some (s.goto t (s.wait timeout))
    | _ => none
  | .wake t =>
    match s.threads[t]? with
    | some (.inCond timed gen0) =>
      if s.gen = gen0 then none else some (s.goto t (.relocking timed false))
    | _ => none
  | .timeOut t =>
    match s.threads[t]? with
    | some (.inCond true _) => some (s.goto t (.relocking true true))
    | _ => none
  | .recheck t =>
    match s.threads[t]? with
    | some (.relocking timed timedOut) => some (s.goto t (s.recheck timed timedOut))
    | _ => none
  | .resume t =>
    match s.threads[t]? with
    | some (.returned _) => some (s.goto t .client)
    | _ => none

/-- The steps, one by one. -/
inductive Step (s : State) : Action → State → Prop
  /-- An enter. -/
  | enter {t : ℕ} (ht : s.threads[t]? = some .client) : Step s (.enter t) s.enter
  /-- A leave after which the group is not empty. -/
  | leave {t e : ℕ} (ht : s.threads[t]? = some .client) (he : e ∈ s.entered)
      (hcount : s.group.count - 1 ≠ 0) :
      Step s (.leave t e) ({ s with
        group := { s.group with count := s.group.count - 1 }
        entered := s.entered.erase e }.goto t (.submitting []))
  /-- The leave that empties the group. -/
  | leaveLast {t e : ℕ} (ht : s.threads[t]? = some .client) (he : e ∈ s.entered)
      (hcount : s.group.count - 1 = 0) :
      Step s (.leave t e) ({ s with
        group := ⟨s.group.count - 1, []⟩
        gen := (s.gen + 1) % 2 ^ 32
        entered := s.entered.erase e }.goto t (.submitting s.group.notifyHead))
  /-- The end of the loop. -/
  | submitEnd {t : ℕ} (ht : s.threads[t]? = some (.submitting [])) :
      Step s (.submit t) (s.goto t .client)
  /-- A push of the loop. -/
  | submit {t : ℕ} {node : Notify} {rest : List Notify}
      (ht : s.threads[t]? = some (.submitting (node :: rest))) :
      Step s (.submit t)
        ({ s with submitted := s.submitted ++ [node] }.goto t (.submitting rest))
  /-- The enter of an item. -/
  | async {t queue : ℕ} (ht : s.threads[t]? = some .client) :
      Step s (.async t queue) (s.enter.goto t (.pushing s.nextEnter queue))
  /-- The push of an item. -/
  | push {t e queue : ℕ} (ht : s.threads[t]? = some (.pushing e queue)) :
      Step s (.push t) ({ s with items := s.items ++ [(e, queue)] }.goto t .client)
  /-- A notify that waits. -/
  | notify {t queue : ℕ} (ht : s.threads[t]? = some .client) (hcount : s.group.count ≠ 0) :
      Step s (.notify t queue) ({ s with
        group := { s.group with
          notifyHead := ⟨s.nextNotify, queue⟩ :: s.group.notifyHead }
        nextNotify := s.nextNotify + 1
        registered := s.registered ++ [Notify.mk s.nextNotify queue]
        enteredBefore := Function.update s.enteredBefore s.nextNotify s.entered }.goto t .client)
  /-- A notify that is to fire now. -/
  | notifyNow {t queue : ℕ} (ht : s.threads[t]? = some .client) (hcount : s.group.count = 0) :
      Step s (.notify t queue) ({ s with
        nextNotify := s.nextNotify + 1
        registered := s.registered ++ [Notify.mk s.nextNotify queue]
        enteredBefore := Function.update s.enteredBefore s.nextNotify s.entered }.goto t
          (.firing ⟨s.nextNotify, queue⟩))
  /-- It fires. -/
  | fire {t : ℕ} {node : Notify} (ht : s.threads[t]? = some (.firing node)) :
      Step s (.fire t) ({ s with submitted := s.submitted ++ [node] }.goto t .client)
  /-- A wait. -/
  | wait {t timeout : ℕ} (ht : s.threads[t]? = some .client) :
      Step s (.wait t timeout) (s.goto t (s.wait timeout))
  /-- A wait is woken. -/
  | wake {t gen0 : ℕ} {timed : Bool} (ht : s.threads[t]? = some (.inCond timed gen0))
      (hgen : s.gen ≠ gen0) : Step s (.wake t) (s.goto t (.relocking timed false))
  /-- A wait is over its deadline. -/
  | timeOut {t gen0 : ℕ} (ht : s.threads[t]? = some (.inCond true gen0)) :
      Step s (.timeOut t) (s.goto t (.relocking true true))
  /-- A wait looks at the count again. -/
  | recheck {t : ℕ} {timed timedOut : Bool}
      (ht : s.threads[t]? = some (.relocking timed timedOut)) :
      Step s (.recheck t) (s.goto t (s.recheck timed timedOut))
  /-- A wait is over. -/
  | resume {t : ℕ} {result : ℤ} (ht : s.threads[t]? = some (.returned result)) :
      Step s (.resume t) (s.goto t .client)

/-- **What a step can do.** -/
theorem Step.of_step {s s' : State} {a : Action} (h : step s a = some s') : Step s a s' := by
  cases a with
  | enter t =>
    simp only [Group.step] at h
    split at h
    · next ht => cases h; exact .enter ht
    · cases h
  | leave t e =>
    simp only [Group.step] at h
    split at h
    · next ht =>
      split at h
      · next he =>
        cases h
        by_cases hcount : s.group.count - 1 = 0
        · have hlast := Step.leaveLast ht he hcount
          simpa [Group.leave, hcount] using hlast
        · have hleave := Step.leave ht he hcount
          simpa [Group.leave, hcount] using hleave
      · cases h
    · cases h
  | submit t =>
    simp only [Group.step] at h
    split at h
    · next ht => cases h; exact .submitEnd ht
    · next node rest ht => cases h; exact .submit ht
    · cases h
  | async t queue =>
    simp only [Group.step] at h
    split at h
    · next ht => cases h; exact .async ht
    · cases h
  | push t =>
    simp only [Group.step] at h
    split at h
    · next e queue ht => cases h; exact .push ht
    · cases h
  | notify t queue =>
    simp only [Group.step] at h
    split at h
    · next ht =>
      cases h
      by_cases hcount : s.group.count = 0
      · have hnow := @Step.notifyNow s t queue ht hcount
        simpa [Group.notify, hcount] using hnow
      · have hnotify := @Step.notify s t queue ht hcount
        simpa [Group.notify, hcount] using hnotify
    · cases h
  | fire t =>
    simp only [Group.step] at h
    split at h
    · next node ht => cases h; exact .fire ht
    · cases h
  | wait t timeout =>
    simp only [Group.step] at h
    split at h
    · next ht => cases h; exact .wait ht
    · cases h
  | wake t =>
    simp only [Group.step] at h
    split at h
    · next timed gen0 ht =>
      split at h
      · cases h
      · next hgen => cases h; exact .wake ht hgen
    · cases h
  | timeOut t =>
    simp only [Group.step] at h
    split at h
    · next gen0 ht => cases h; exact .timeOut ht
    · cases h
  | recheck t =>
    simp only [Group.step] at h
    split at h
    · next timed timedOut ht => cases h; exact .recheck ht
    · cases h
  | resume t =>
    simp only [Group.step] at h
    split at h
    · next result ht => cases h; exact .resume ht
    · cases h

end Group

end Asteros.Dispatch
