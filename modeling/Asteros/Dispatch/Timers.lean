import Asteros.Lib.Transition
import Mathlib.Algebra.Ring.Nat

set_option autoImplicit false

/-!
# Timers

`dispatch_time.c`: `dispatch_after_f` pushes an item whose deadline is over, and links the others
into a list that is sorted by deadline. One thread, `timer_main`, takes the head of the list while
its deadline is over, gives the lock back to push the item, and reads the clock again under the
lock; when no deadline is over it sleeps, for 20 milliseconds at most. Any number of threads
schedule items; a step is one access of a thread to what is shared, or a change of the clock.

## Main definitions

* `Timers.insert` — the loop of `_dispatch_timer_schedule`.
* `Timers.step` — a step.
* `Timers.Step` — the steps, one by one.

## Main results

* `Timers.Step.of_step` — what a step can do.
-/

namespace Asteros.Dispatch

/-- `struct timer_node`; the number tells the allocations apart. -/
structure TimerNode where
  /-- Which node it is, with its `func` and `context`. -/
  id : ℕ
  /-- `deadline`. -/
  deadline : ℕ
  /-- `queue`. -/
  queue : ℕ
  deriving DecidableEq

namespace Timers

/-- `TIMER_POLL_CAP_NS`. -/
def timerPollCapNs : ℕ := 20000000

/-- The list behind `_dispatch_timer_schedule`. -/
def insert (node : TimerNode) : List TimerNode → List TimerNode
  | [] => [node]
  | head :: rest =>
    if head.deadline ≤ node.deadline then head :: insert node rest else node :: head :: rest

/-- `sleep_ns`, for the list and the time `timer_main` has read last. -/
def sleepNs (timers : List TimerNode) (now : ℕ) : ℕ :=
  match timers with
  | [] => timerPollCapNs
  | head :: _ =>
    let remaining := if now < head.deadline then head.deadline - now else 0
    if remaining < timerPollCapNs then remaining else timerPollCapNs

/-! ## The threads -/

/-- Where a thread is that schedules items. -/
inductive Pc where
  /-- In code of the client. -/
  | client
  /-- In `dispatch_after_f`, before the push of an item that was over at a time it has read. -/
  | pushing (node : TimerNode) (now : ℕ)
  /-- In `_dispatch_timer_schedule`, in `pthread_mutex_lock`. -/
  | locking (node : TimerNode)
  /-- Before it links the node. -/
  | linking (node : TimerNode)
  /-- Before `pthread_mutex_unlock`. -/
  | unlocking
  deriving DecidableEq

/-- Where `timer_main` is. -/
inductive TimerPc where
  /-- In `pthread_mutex_lock`, of the outer loop or behind a push. -/
  | locking
  /-- Before `now_ns`. -/
  | reading
  /-- Before it looks at the head of the list, with `now`. -/
  | scanning (now : ℕ)
  /-- Before it gives the lock back, with `fire`. -/
  | unlinked (fire : TimerNode) (now : ℕ)
  /-- Before it pushes `fire`. -/
  | pushing (fire : TimerNode) (now : ℕ)
  /-- Before it gives the lock back to sleep, with `sleep_ns`. -/
  | leaving (now sleepNs : ℕ)
  /-- Before it computes `wake_at`. -/
  | sleeping (sleepNs : ℕ)
  /-- In its loop. -/
  | spinning (wakeAt : ℕ)
  deriving DecidableEq

/-- An item that was pushed to its queue, and the time at which it was found to be over. -/
structure Submission where
  /-- The item. -/
  node : TimerNode
  /-- The reading of the clock. -/
  now : ℕ
  deriving DecidableEq

/-- The timers, the clock and the threads. The last fields are the history. -/
structure State where
  /-- What `now_ns` gives. -/
  clock : ℕ
  /-- Whether a thread has `g_timers.lock`. -/
  owned : Bool
  /-- The list at `g_timers.head`. -/
  timers : List TimerNode
  /-- Where `timer_main` is. -/
  timer : TimerPc
  /-- Where the other threads are. -/
  threads : List Pc
  /-- The number of the next item. -/
  nextId : ℕ
  /-- The items of the calls of `dispatch_after_f`. -/
  called : List TimerNode
  /-- Those of them that were linked, in order. -/
  scheduled : List TimerNode
  /-- The items that were pushed, in order. -/
  submitted : List Submission

/-- The timer thread has started; `n` other threads. -/
def init (clock n : ℕ) : State where
  clock := clock
  owned := false
  timers := []
  timer := .locking
  threads := List.replicate n .client
  nextId := 0
  called := []
  scheduled := []
  submitted := []

/-! ## The steps -/

/-- A step of a schedule. -/
inductive Action where
  /-- The clock goes on. -/
  | tick (clock : ℕ)
  /-- A thread calls `dispatch_after_f`, which reads the clock. -/
  | after (t when queue : ℕ)
  /-- A thread goes on. -/
  | run (t : ℕ)
  /-- `timer_main` goes on. -/
  | timer
  deriving DecidableEq

namespace State

/-- A thread moves on. -/
def goto (s : State) (t : ℕ) (pc : Pc) : State := { s with threads := s.threads.set t pc }

/-- The first test of `dispatch_after_f`. -/
def after (s : State) (t : ℕ) (node : TimerNode) : State :=
  { s with nextId := s.nextId + 1, called := s.called ++ [node] }.goto t
    (if node.deadline ≤ s.clock then .pushing node s.clock else .locking node)

/-- `_dispatch_queue_push_item`. -/
def submit (s : State) (node : TimerNode) (now : ℕ) : State :=
  { s with submitted := s.submitted ++ [⟨node, now⟩] }

/-- A thread links its node. -/
def link (s : State) (t : ℕ) (node : TimerNode) : State :=
  { s with timers := insert node s.timers, scheduled := s.scheduled ++ [node] }.goto t .unlocking

/-- `timer_main` looks at the head of the list. -/
def scan (s : State) (now : ℕ) : State :=
  match s.timers with
  | [] => { s with timer := .leaving now (sleepNs s.timers now) }
  | head :: rest =>
    if head.deadline ≤ now then { s with timers := rest, timer := .unlinked head now }
    else { s with timer := .leaving now (sleepNs s.timers now) }

end State

/-- The next access of `timer_main`. -/
def stepTimer (s : State) : TimerPc → Option State
  | .locking => if s.owned then none else some { s with owned := true, timer := .reading }
  | .reading => some { s with timer := .scanning s.clock }
  | .scanning now => some (s.scan now)
  | .unlinked fire now => some { s with owned := false, timer := .pushing fire now }
  | .pushing fire now => some { s.submit fire now with timer := .locking }
  | .leaving _ sleepNs =>
    some { s with
      owned := false
      timer := if 0 < sleepNs then .sleeping sleepNs else .locking }
  | .sleeping sleepNs => some { s with timer := .spinning ((s.clock + sleepNs) % 2 ^ 64) }
  | .spinning wakeAt => if s.clock < wakeAt then none else some { s with timer := .locking }

/-- The next access of another thread. -/
def stepThread (s : State) (t : ℕ) : Pc → Option State
  | .client => none
  | .pushing node now => some ((s.submit node now).goto t .client)
  | .locking node => if s.owned then none else some ({ s with owned := true }.goto t (.linking node))
  | .linking node => some (s.link t node)
  | .unlocking => some ({ s with owned := false }.goto t .client)

/-- A step. The clock does not go back. -/
def step (s : State) : Action → Option State
  | .tick clock => if s.clock ≤ clock then some { s with clock } else none
  | .after t when queue =>
    match s.threads[t]? with
    | some .client => some (s.after t ⟨s.nextId, when, queue⟩)
    | _ => none
  | .run t =>
    match s.threads[t]? with
    | some pc => stepThread s t pc
    | none => none
  | .timer => stepTimer s s.timer

/-- The steps, one by one. -/
inductive Step (s : State) : Action → State → Prop
  /-- The clock goes on. -/
  | tick {clock : ℕ} (h : s.clock ≤ clock) : Step s (.tick clock) { s with clock }
  /-- A call. -/
  | after {t when queue : ℕ} (ht : s.threads[t]? = some .client) :
      Step s (.after t when queue) (s.after t ⟨s.nextId, when, queue⟩)
  /-- The push of an item that was over. -/
  | push {t now : ℕ} {node : TimerNode} (ht : s.threads[t]? = some (.pushing node now)) :
      Step s (.run t) ((s.submit node now).goto t .client)
  /-- A thread takes the lock. -/
  | lock {t : ℕ} {node : TimerNode} (ht : s.threads[t]? = some (.locking node))
      (howned : s.owned = false) :
      Step s (.run t) ({ s with owned := true }.goto t (.linking node))
  /-- It links its node. -/
  | link {t : ℕ} {node : TimerNode} (ht : s.threads[t]? = some (.linking node)) :
      Step s (.run t) (s.link t node)
  /-- It gives the lock back. -/
  | unlock {t : ℕ} (ht : s.threads[t]? = some .unlocking) :
      Step s (.run t) ({ s with owned := false }.goto t .client)
  /-- `timer_main` takes the lock. -/
  | timerLock (ht : s.timer = .locking) (howned : s.owned = false) :
      Step s .timer { s with owned := true, timer := .reading }
  /-- It reads the clock. -/
  | timerRead (ht : s.timer = .reading) : Step s .timer { s with timer := .scanning s.clock }
  /-- The deadline of the head is over. -/
  | timerUnlink {now : ℕ} {head : TimerNode} {rest : List TimerNode}
      (ht : s.timer = .scanning now) (htimers : s.timers = head :: rest)
      (hdue : head.deadline ≤ now) :
      Step s .timer { s with timers := rest, timer := .unlinked head now }
  /-- No deadline is over. -/
  | timerRest {now : ℕ} (ht : s.timer = .scanning now)
      (hrest : ∀ head ∈ s.timers.head?, now < head.deadline) :
      Step s .timer { s with timer := .leaving now (sleepNs s.timers now) }
  /-- It gives the lock back to push. -/
  | timerUnlock {fire : TimerNode} {now : ℕ} (ht : s.timer = .unlinked fire now) :
      Step s .timer { s with owned := false, timer := .pushing fire now }
  /-- It pushes. -/
  | timerPush {fire : TimerNode} {now : ℕ} (ht : s.timer = .pushing fire now) :
      Step s .timer { s.submit fire now with timer := .locking }
  /-- It gives the lock back to sleep. -/
  | timerLeave {now sleepNs : ℕ} (ht : s.timer = .leaving now sleepNs) :
      Step s .timer { s with
        owned := false
        timer := if 0 < sleepNs then .sleeping sleepNs else .locking }
  /-- It computes when to wake. -/
  | timerSleep {sleepNs : ℕ} (ht : s.timer = .sleeping sleepNs) :
      Step s .timer { s with timer := .spinning ((s.clock + sleepNs) % 2 ^ 64) }
  /-- It wakes. -/
  | timerWake {wakeAt : ℕ} (ht : s.timer = .spinning wakeAt) :
      Step s .timer { s with timer := .locking }

/-- **What a step can do.** -/
theorem Step.of_step {s s' : State} {a : Action} (h : step s a = some s') : Step s a s' := by
  cases a with
  | tick clock =>
    simp only [Timers.step] at h
    split at h
    · next hle => cases h; exact .tick hle
    · cases h
  | after t when queue =>
    simp only [Timers.step] at h
    split at h
    · next ht => cases h; exact .after ht
    · cases h
  | run t =>
    simp only [Timers.step] at h
    split at h
    · next pc ht =>
      cases pc with
      | client => cases h
      | pushing node now => cases h; exact .push ht
      | locking node =>
        simp only [stepThread] at h
        split at h
        · cases h
        · next howned => cases h; exact .lock ht (by simpa using howned)
      | linking node => cases h; exact .link ht
      | unlocking => cases h; exact .unlock ht
    · cases h
  | timer =>
    simp only [Timers.step] at h
    cases ht : s.timer with
    | locking =>
      simp only [ht, stepTimer] at h
      split at h
      · cases h
      · next howned => cases h; exact .timerLock ht (by simpa using howned)
    | reading => rw [ht] at h; cases h; exact .timerRead ht
    | scanning now =>
      simp only [ht, stepTimer, State.scan, Option.some_inj] at h
      split at h
      · next htimers =>
        subst h
        exact .timerRest ht (by rw [htimers]; exact nofun)
      · next head rest htimers =>
        split at h
        · next hdue => subst h; exact .timerUnlink ht htimers hdue
        · next hdue =>
          subst h
          refine .timerRest ht fun head' hhead => ?_
          rw [htimers] at hhead
          cases hhead
          exact Nat.lt_of_not_le hdue
    | unlinked fire now => rw [ht] at h; cases h; exact .timerUnlock ht
    | pushing fire now => rw [ht] at h; cases h; exact .timerPush ht
    | leaving now sleepNs => rw [ht] at h; cases h; exact .timerLeave ht
    | sleeping sleepNs => rw [ht] at h; cases h; exact .timerSleep ht
    | spinning wakeAt =>
      simp only [ht, stepTimer] at h
      split at h
      · cases h
      · cases h; exact .timerWake ht

end Timers

end Asteros.Dispatch
