import Asteros.Lib.Transition
import Mathlib.Data.Int.Notation
import Mathlib.Logic.Function.Basic
import Mathlib.Tactic.Linarith

set_option autoImplicit false

/-!
# Semaphores

`dispatch_semaphore.c` over `pthread.c`: a semaphore is a count under a mutex, with a condition
variable that is a generation counter. `pthread_cond_signal` adds 1 to the generation, an
`unsigned int`; `pthread_cond_wait` reads the generation, gives the mutex back, polls until the
generation is another one, and takes the mutex again. Any number of threads signal and wait. A step
is one access of a thread to what the threads share, so that every interleaving is a schedule; a
deadline may be found to be over at any moment.

## Main definitions

* `Semaphore` — the semaphore.
* `Semaphore.access` — the next access of a thread.
* `Semaphore.step` — a step of a schedule.

## Main results

* `Semaphore.Step.of_step` — what a step can do.
-/

namespace Asteros.Dispatch

/-- `struct dispatch_semaphore_s`: `lock.owned`, `cond.gen` and `value`. -/
structure Semaphore where
  /-- Whether a thread has the mutex. -/
  owned : Bool
  /-- The generation of the condition variable. -/
  gen : ℕ
  /-- The count. -/
  value : ℤ
  deriving DecidableEq

namespace Semaphore

/-- `dispatch_semaphore_create`. -/
def create (value : ℤ) : Semaphore where
  owned := false
  gen := 0
  value := value

/-- `DISPATCH_TIME_NOW`. -/
def dispatchTimeNow : ℕ := 0

/-- `DISPATCH_TIME_FOREVER`. -/
def dispatchTimeForever : ℕ := 2 ^ 64 - 1

/-- What a `long` holds of a number. -/
def toLong (n : ℤ) : ℤ := n.bmod (2 ^ 64)

/-- The next generation. -/
def nextGen (gen : ℕ) : ℕ := (gen + 1) % 2 ^ 32

/-! ## The threads -/

/-- Where a thread is. A `timed` wait is one with a deadline. -/
inductive Pc where
  /-- In code of the client. -/
  | client
  /-- `dispatch_semaphore_signal`, in `pthread_mutex_lock`. -/
  | enterSignal
  /-- Before `++sem->value`. -/
  | increment
  /-- Before the test of the new `value`, and `pthread_cond_signal`. -/
  | notify (value : ℤ)
  /-- Before `pthread_mutex_unlock`. -/
  | leaveSignal (value : ℤ)
  /-- `dispatch_semaphore_wait`, in `pthread_mutex_lock`. -/
  | enterWait (timeout : ℕ)
  /-- Before the first look at the count. -/
  | test (timeout : ℕ)
  /-- In `pthread_cond_wait` or `pthread_cond_timedwait`, before it reads the generation. -/
  | sample (timed : Bool)
  /-- Before it gives the mutex back. -/
  | release (timed : Bool) (gen0 : ℕ)
  /-- In its loop. -/
  | polling (timed : Bool) (gen0 : ℕ)
  /-- Behind the loop, in `pthread_mutex_lock`. -/
  | relock (timed timedOut : Bool)
  /-- Before the next look at the count. -/
  | recheck (timed timedOut : Bool)
  /-- Before `sem->value--`. -/
  | take
  /-- Before `pthread_mutex_unlock`, with `result`. -/
  | leaveWait (result : ℤ)
  deriving DecidableEq

/-- What the first look at the count leads to: the three branches of `dispatch_semaphore_wait`. -/
def afterTest (value : ℤ) (timeout : ℕ) : Pc :=
  if timeout = dispatchTimeForever then (if value ≤ 0 then .sample false else .take)
  else if timeout = dispatchTimeNow then (if 0 < value then .take else .leaveWait (-1))
  else if value ≤ 0 then .sample true else .take

/-- What a look at the count behind the condition variable leads to. -/
def afterRecheck (value : ℤ) (timed timedOut : Bool) : Pc :=
  if timed && timedOut && decide (value ≤ 0) then .leaveWait (-1)
  else if value ≤ 0 then .sample timed else .take

/-- The exchange of `pthread_mutex_lock`; a thread that finds the mutex taken spins. -/
def lock (sem : Semaphore) (pc : Pc) : Option (Semaphore × Pc) :=
  if sem.owned then none else some ({ sem with owned := true }, pc)

/-- `pthread_mutex_unlock`. -/
def unlock (sem : Semaphore) : Semaphore := { sem with owned := false }

/-- The next access of a thread, and where it leads to. -/
def access (sem : Semaphore) : Pc → Option (Semaphore × Pc)
  | .client => none
  | .enterSignal => sem.lock .increment
  | .increment =>
    let value := toLong (sem.value + 1)
    some ({ sem with value }, .notify value)
  | .notify value =>
    some (if 0 < value then { sem with gen := nextGen sem.gen } else sem, .leaveSignal value)
  | .leaveSignal _ => some (sem.unlock, .client)
  | .enterWait timeout => sem.lock (.test timeout)
  | .test timeout => some (sem, afterTest sem.value timeout)
  | .sample timed => some (sem, .release timed sem.gen)
  | .release timed gen0 => some (sem.unlock, .polling timed gen0)
  | .polling timed gen0 => if sem.gen = gen0 then none else some (sem, .relock timed false)
  | .relock timed timedOut => sem.lock (.recheck timed timedOut)
  | .recheck timed timedOut => some (sem, afterRecheck sem.value timed timedOut)
  | .take => some ({ sem with value := toLong (sem.value - 1) }, .leaveWait 0)
  | .leaveWait _ => some (sem.unlock, .client)

/-! ## The steps -/

/-- A wait that has returned. -/
structure Return where
  /-- What it returned. -/
  result : ℤ
  /-- How many units it took. -/
  took : ℕ
  deriving DecidableEq

/-- A semaphore and the threads that use it. The last fields are the history. -/
structure State where
  /-- The semaphore. -/
  sem : Semaphore
  /-- Where the threads are. -/
  threads : List Pc
  /-- How many signals have added their unit. -/
  signals : ℕ
  /-- How many units the waits have taken. -/
  units : ℕ
  /-- How many of them the last wait of each thread has taken. -/
  took : ℕ → ℕ
  /-- The waits that have returned. -/
  returns : List Return

/-- A new semaphore, and `n` threads. -/
def init (value : ℤ) (n : ℕ) : State where
  sem := create value
  threads := List.replicate n .client
  signals := 0
  units := 0
  took _ := 0
  returns := []

/-- A step of a schedule. -/
inductive Action where
  /-- A thread calls `dispatch_semaphore_signal`. -/
  | signal (t : ℕ)
  /-- A thread calls `dispatch_semaphore_wait`. -/
  | wait (t timeout : ℕ)
  /-- A thread makes its next access. -/
  | run (t : ℕ)
  /-- The loop of `pthread_cond_timedwait` finds that the deadline is over. -/
  | timeOut (t : ℕ)
  deriving DecidableEq

namespace State

/-- The units that a thread has taken, behind its next access. -/
def tookAfter (s : State) (t : ℕ) : Pc → ℕ → ℕ
  | .take => Function.update s.took t (s.took t + 1)
  | _ => s.took

/-- The waits that have returned, behind the next access of a thread. -/
def returnsAfter (s : State) (t : ℕ) : Pc → List Return
  | .leaveWait result => s.returns ++ [⟨result, s.took t⟩]
  | _ => s.returns

/-- A thread at `pc` has made its access, which has left it at `pc'`. -/
def accessed (s : State) (t : ℕ) (pc : Pc) (sem : Semaphore) (pc' : Pc) : State where
  sem := sem
  threads := s.threads.set t pc'
  signals := if pc = .increment then s.signals + 1 else s.signals
  units := if pc = .take then s.units + 1 else s.units
  took := s.tookAfter t pc
  returns := s.returnsAfter t pc

/-- A thread moves on without an access. -/
def goto (s : State) (t : ℕ) (pc : Pc) : State := { s with threads := s.threads.set t pc }

/-- A thread calls `dispatch_semaphore_wait`. -/
def wait (s : State) (t timeout : ℕ) : State :=
  { s with took := Function.update s.took t 0 }.goto t (.enterWait timeout)

end State

/-- A step. -/
def step (s : State) : Action → Option State
  | .signal t =>
    match s.threads[t]? with
    | some .client => some (s.goto t .enterSignal)
    | _ => none
  | .wait t timeout =>
    match s.threads[t]? with
    | some .client => some (s.wait t timeout)
    | _ => none
  | .run t =>
    match s.threads[t]? with
    | some pc => (s.sem.access pc).map fun next => s.accessed t pc next.1 next.2
    | none => none
  | .timeOut t =>
    match s.threads[t]? with
    | some (.polling true _) => some (s.goto t (.relock true true))
    | _ => none

/-- The steps, one by one. -/
inductive Step (s : State) : Action → State → Prop
  /-- A call of `dispatch_semaphore_signal`. -/
  | signal {t : ℕ} (ht : s.threads[t]? = some .client) :
      Step s (.signal t) (s.goto t .enterSignal)
  /-- A call of `dispatch_semaphore_wait`. -/
  | wait {t timeout : ℕ} (ht : s.threads[t]? = some .client) :
      Step s (.wait t timeout) (s.wait t timeout)
  /-- An access. -/
  | run {t : ℕ} {pc pc' : Pc} {sem : Semaphore} (ht : s.threads[t]? = some pc)
      (haccess : s.sem.access pc = some (sem, pc')) : Step s (.run t) (s.accessed t pc sem pc')
  /-- A deadline is over. -/
  | timeOut {t gen0 : ℕ} (ht : s.threads[t]? = some (.polling true gen0)) :
      Step s (.timeOut t) (s.goto t (.relock true true))

/-- **What a step can do.** -/
theorem Step.of_step {s s' : State} {a : Action} (h : step s a = some s') : Step s a s' := by
  cases a with
  | signal t =>
    simp only [Semaphore.step] at h
    split at h
    · next ht =>
      cases h
      exact .signal ht
    · cases h
  | wait t timeout =>
    simp only [Semaphore.step] at h
    split at h
    · next ht =>
      cases h
      exact .wait ht
    · cases h
  | run t =>
    simp only [Semaphore.step] at h
    split at h
    · next pc ht =>
      obtain ⟨⟨sem, pc'⟩, haccess, rfl⟩ := Option.map_eq_some_iff.mp h
      exact .run ht haccess
    · cases h
  | timeOut t =>
    simp only [Semaphore.step] at h
    split at h
    · next gen0 ht =>
      cases h
      exact .timeOut ht
    · cases h

end Semaphore

end Asteros.Dispatch
