import Asteros.Lib.Transition
import Mathlib.Data.Nat.Notation
import Mathlib.Logic.Function.Basic

set_option autoImplicit false

/-!
# Queues and the worker pool

`dispatch_queue.c`: queues with a FIFO of items each, one list of runnable nodes, and the workers
of the pool, which take nodes from it. The steps of a schedule are the sections that hold a lock,
those of any number of threads that push and of any number of workers; a wait on a condition
variable is a step that is not possible before its predicate holds. The code of the client runs in
threads of its own and in the items that the workers run, and pushes whenever it likes.

What is pushed is generic: `α` is what the client gives as function and context.

## Main definitions

* `Queue`, `Item`, `Thread` — the data.
* `Queue.pushItem`, `Queue.popHeadLocked`, `Queue.drainNext` — what the sections do to a queue.
* `step` — a step of a thread.
* `Step` — the steps, one by one.

## Main results

* `Step.of_step` — what a step can do.
-/

namespace Asteros.Dispatch

variable {α : Type}

/-! ## The data -/

/-- `func` of a `dispatch_item`, with its context. -/
inductive Func (α : Type) where
  /-- A function of the client. -/
  | client (f : α)
  /-- `_dispatch_sync_trampoline` with the semaphore `done` of its `sync_ctx`. -/
  | syncTrampoline (done : ℕ)
  deriving DecidableEq

/-- `struct dispatch_item`; the number tells the allocations apart. -/
structure Item (α : Type) where
  /-- Which item it is. -/
  id : ℕ
  /-- `func` and `context`. -/
  func : Func α
  deriving DecidableEq

/-- `struct dispatch_queue_s`, without the label and the object's header. -/
structure Queue (α : Type) where
  /-- `is_serial`. -/
  isSerial : Bool
  /-- The items from `head` to `tail`. -/
  items : List (Item α)
  /-- `draining`. -/
  draining : Bool
  /-- `on_runnable_list`. -/
  onRunnableList : Bool
  deriving DecidableEq

/-- `dispatch_queue_create`. -/
def Queue.create (isSerial : Bool) : Queue α where
  isSerial := isSerial
  items := []
  draining := false
  onRunnableList := false

/-- The locked section of `_dispatch_queue_push_item`, with `should_push`. -/
def Queue.pushItem (q : Queue α) (item : Item α) : Queue α × Bool :=
  let q := { q with items := q.items ++ [item] }
  if q.isSerial then
    if !q.draining && !q.onRunnableList then ({ q with onRunnableList := true }, true)
    else (q, false)
  else (q, true)

/-- `queue_pop_head_locked`. -/
def Queue.popHeadLocked (q : Queue α) : Option (Item α) × Queue α :=
  match q.items with
  | [] => (none, q)
  | item :: rest => (some item, { q with items := rest })

/-- A pass of the drain loop of a serial queue under the lock: the next item, or the end of the
drain. -/
def Queue.drainNext (q : Queue α) : Option (Item α) × Queue α :=
  match q.popHeadLocked with
  | (some item, q) => (some item, q)
  | (none, q) => (none, { q with draining := false })

/-- What a worker that has popped a node does under the lock: a serial queue is drained from here
on, of a concurrent one an item is taken. -/
def Queue.begin (q : Queue α) : Option (Item α) × Queue α :=
  if q.isSerial then { q with onRunnableList := false, draining := true }.drainNext
  else q.popHeadLocked

/-- Where a thread is outside the calls that its client code makes. -/
inductive Role (α : Type) where
  /-- Code of the client, in a thread that is not of the pool. -/
  | client
  /-- `worker_main`, before `runnable_pop_blocking` returns. -/
  | top
  /-- `worker_main`, with a node of the queue in its hand. -/
  | popped (q : ℕ)
  /-- In `item->func`. -/
  | running (q : ℕ) (item : Item α)
  /-- `item->func` has returned, and the lock of the serial queue has yet to be taken. -/
  | returned (q : ℕ)
  deriving DecidableEq

/-- Where a thread is in a call that its client code makes. -/
inductive Call where
  /-- Not in a call. -/
  | none
  /-- At the `runnable_push` of `_dispatch_queue_push_item`, for `dispatch_async_f`, or for
  `dispatch_sync_f` with the semaphore it will wait for. -/
  | pushing (q : ℕ) (done : Option ℕ)
  /-- At the `dispatch_semaphore_wait` of `dispatch_sync_f`. -/
  | waiting (q done : ℕ)
  deriving DecidableEq

/-- A thread. -/
structure Thread (α : Type) where
  /-- Where it is. -/
  role : Role α
  /-- The call of the library that it is in. -/
  call : Call
  /-- Its value of `g_dispatch_draining_key`. -/
  drainingKey : Option ℕ
  deriving DecidableEq

/-- Code of the client is running. -/
def Thread.inClient (th : Thread α) : Bool :=
  match th.role, th.call with
  | .client, .none | .running _ _, .none => true
  | _, _ => false

/-- The process. The last two fields are its history. -/
structure State (α : Type) where
  /-- The queues. -/
  queues : ℕ → Queue α
  /-- The queues of the nodes of `g_runnable`, from `head` to `tail`. -/
  runnable : List ℕ
  /-- The threads. -/
  threads : List (Thread α)
  /-- The values of the semaphores of `dispatch_sync_f`, which are numbered like their items. -/
  semaphores : ℕ → ℕ
  /-- The number of the next item. -/
  nextItem : ℕ
  /-- What was pushed, in this order: the queue and the item. -/
  pushed : List (ℕ × ℕ)
  /-- What was taken off its queue to be run, in this order. -/
  started : List (ℕ × ℕ)

/-- A thread of the pool, at first. -/
def worker : Thread α where
  role := .top
  call := .none
  drainingKey := .none

/-- A thread of the client, at first. -/
def clientThread : Thread α where
  role := .client
  call := .none
  drainingKey := .none

/-- After `_dispatch_workerpool_start`: `n` workers, the first of the threads, and `m` threads of
the client, with empty queues. -/
def init (serial : ℕ → Bool) (n m : ℕ) : State α where
  queues i := Queue.create (serial i)
  runnable := []
  threads := List.replicate n worker ++ List.replicate m clientThread
  semaphores _ := 0
  nextItem := 0
  pushed := []
  started := []

/-! ## The steps -/

/-- A thread moves on. -/
def State.goto (s : State α) (t : ℕ) (th : Thread α) : State α :=
  { s with threads := s.threads.set t th }

/-- A queue changes. -/
def State.setQueue (s : State α) (q : ℕ) (queue : Queue α) : State α :=
  { s with queues := Function.update s.queues q queue }

/-- `_dispatch_queue_push_item` up to the end of its locked section, with `should_push`. -/
def State.pushItem (s : State α) (q : ℕ) (func : Func α) : State α × Bool :=
  let pushedTo := (s.queues q).pushItem ⟨s.nextItem, func⟩
  ({ s.setQueue q pushedTo.1 with
      nextItem := s.nextItem + 1
      pushed := s.pushed ++ [(q, s.nextItem)] }, pushedTo.2)

/-- A step of a schedule. -/
inductive Action (α : Type) where
  /-- `dispatch_async_f`, up to the end of the locked section. -/
  | async (t q : ℕ) (f : α)
  /-- `dispatch_sync_f`, up to the end of the locked section. -/
  | sync (t q : ℕ)
  /-- `runnable_push`. -/
  | runnablePush (t : ℕ)
  /-- `dispatch_semaphore_wait` returns. -/
  | wake (t : ℕ)
  /-- `runnable_pop_blocking` returns. -/
  | pop (t : ℕ)
  /-- The worker with a node takes the queue's lock, up to where it gives it back. -/
  | begin (t : ℕ)
  /-- `item->func` ends, for a `dispatch_sync` with its signal. -/
  | finish (t : ℕ)
  /-- The drain loop takes the queue's lock again, up to where it gives it back. -/
  | drainNext (t : ℕ)
  deriving DecidableEq

/-- Where a worker is that got this from the queue `q` under the lock. Only a drain sets the
key. -/
def Thread.took (th : Thread α) (q : ℕ) (isSerial : Bool) : Option (Item α) → Thread α
  | none => { th with role := .top }
  | some item =>
    { th with role := .running q item, drainingKey := if isSerial then some q else th.drainingKey }

/-- A worker got something from the queue `q` under the lock, or nothing. -/
def State.take (s : State α) (t : ℕ) (th : Thread α) (q : ℕ)
    (got : Option (Item α) × Queue α) : State α :=
  { (s.setQueue q got.2).goto t (th.took q (s.queues q).isSerial got.1) with
    started := s.started ++ (got.1.map fun item => (q, item.id)).toList }

/-- Where a thread is that has the locked section of a push behind it. -/
def Thread.pushes (th : Thread α) (q : ℕ) (shouldPush : Bool) (done : Option ℕ) : Thread α :=
  { th with call :=
      if shouldPush then .pushing q done
      else match done with
        | none => .none
        | some k => .waiting q k }

/-- The end of `item->func`: `_dispatch_sync_trampoline` signals. -/
def State.signal (s : State α) : Func α → State α
  | .client _ => s
  | .syncTrampoline k => { s with semaphores := Function.update s.semaphores k (s.semaphores k + 1) }

/-- A step. `dispatch_sync` to the queue that the thread is draining aborts the process, which has
no next state. -/
def step (s : State α) : Action α → Option (State α)
  | .async t q f =>
    match s.threads[t]? with
    | none => none
    | some th =>
      if th.inClient then
        let pushedTo := s.pushItem q (.client f)
        some (pushedTo.1.goto t (th.pushes q pushedTo.2 none))
      else none
  | .sync t q =>
    match s.threads[t]? with
    | none => none
    | some th =>
      if th.inClient && th.drainingKey != some q then
        let pushedTo := s.pushItem q (.syncTrampoline s.nextItem)
        some (pushedTo.1.goto t (th.pushes q pushedTo.2 (some s.nextItem)))
      else none
  | .runnablePush t =>
    match s.threads[t]? with
    | none => none
    | some th =>
      match th.call with
      | .pushing q done =>
        some ({ s with runnable := s.runnable ++ [q] }.goto t (th.pushes q false done))
      | _ => none
  | .wake t =>
    match s.threads[t]? with
    | none => none
    | some th =>
      match th.call with
      | .waiting _ k =>
        if 0 < s.semaphores k then
          some ({ s with semaphores := Function.update s.semaphores k (s.semaphores k - 1) }.goto t
            { th with call := .none })
        else none
      | _ => none
  | .pop t =>
    match s.threads[t]? with
    | none => none
    | some th =>
      match th.role, s.runnable with
      | .top, q :: rest => some ({ s with runnable := rest }.goto t { th with role := .popped q })
      | _, _ => none
  | .begin t =>
    match s.threads[t]? with
    | none => none
    | some th =>
      match th.role with
      | .popped q => some (s.take t th q (s.queues q).begin)
      | _ => none
  | .finish t =>
    match s.threads[t]? with
    | none => none
    | some th =>
      match th.role, th.call with
      | .running q item, .none =>
        if (s.queues q).isSerial then
          some ((s.signal item.func).goto t { th with role := .returned q, drainingKey := none })
        else some ((s.signal item.func).goto t { th with role := .top })
      | _, _ => none
  | .drainNext t =>
    match s.threads[t]? with
    | none => none
    | some th =>
      match th.role with
      | .returned q => some (s.take t th q (s.queues q).drainNext)
      | _ => none

/-- The steps, one by one. -/
inductive Step (s : State α) : Action α → State α → Prop
  /-- A push that does not wait. -/
  | async {t q : ℕ} {f : α} {th : Thread α} (hth : s.threads[t]? = some th) (hin : th.inClient) :
      Step s (.async t q f) ((s.pushItem q (.client f)).1.goto t
        (th.pushes q (s.pushItem q (.client f)).2 none))
  /-- A push that waits, not to the queue that the thread drains. -/
  | sync {t q : ℕ} {th : Thread α} (hth : s.threads[t]? = some th) (hin : th.inClient)
      (hkey : th.drainingKey ≠ some q) :
      Step s (.sync t q) ((s.pushItem q (.syncTrampoline s.nextItem)).1.goto t
        (th.pushes q (s.pushItem q (.syncTrampoline s.nextItem)).2 (some s.nextItem)))
  /-- A node on the list. -/
  | runnablePush {t q : ℕ} {done : Option ℕ} {th : Thread α} (hth : s.threads[t]? = some th)
      (hcall : th.call = .pushing q done) :
      Step s (.runnablePush t)
        ({ s with runnable := s.runnable ++ [q] }.goto t (th.pushes q false done))
  /-- The end of a wait. -/
  | wake {t q k : ℕ} {th : Thread α} (hth : s.threads[t]? = some th)
      (hcall : th.call = .waiting q k) (hpos : 0 < s.semaphores k) :
      Step s (.wake t)
        ({ s with semaphores := Function.update s.semaphores k (s.semaphores k - 1) }.goto t
          { th with call := .none })
  /-- A node off the list. -/
  | pop {t q : ℕ} {rest : List ℕ} {th : Thread α} (hth : s.threads[t]? = some th)
      (hrole : th.role = .top) (hrun : s.runnable = q :: rest) :
      Step s (.pop t) ({ s with runnable := rest }.goto t { th with role := .popped q })
  /-- The queue of a node. -/
  | begin {t q : ℕ} {th : Thread α} (hth : s.threads[t]? = some th)
      (hrole : th.role = .popped q) :
      Step s (.begin t) (s.take t th q (s.queues q).begin)
  /-- The end of an item of a serial queue. -/
  | finishSerial {t q : ℕ} {item : Item α} {th : Thread α} (hth : s.threads[t]? = some th)
      (hrole : th.role = .running q item) (hcall : th.call = .none)
      (hserial : (s.queues q).isSerial = true) :
      Step s (.finish t)
        ((s.signal item.func).goto t { th with role := .returned q, drainingKey := none })
  /-- The end of an item of a concurrent queue. -/
  | finishConcurrent {t q : ℕ} {item : Item α} {th : Thread α} (hth : s.threads[t]? = some th)
      (hrole : th.role = .running q item) (hcall : th.call = .none)
      (hserial : (s.queues q).isSerial = false) :
      Step s (.finish t) ((s.signal item.func).goto t { th with role := .top })
  /-- The next pass of a drain. -/
  | drainNext {t q : ℕ} {th : Thread α} (hth : s.threads[t]? = some th)
      (hrole : th.role = .returned q) :
      Step s (.drainNext t) (s.take t th q (s.queues q).drainNext)

/-- **What a step can do.** -/
theorem Step.of_step {s s' : State α} {a : Action α} (h : step s a = some s') : Step s a s' := by
  cases a with
  | async t q f =>
    simp only [step] at h
    split at h
    · cases h
    next th hth =>
      split at h
      · next hin => cases h; exact .async hth hin
      · cases h
  | sync t q =>
    simp only [step] at h
    split at h
    · cases h
    next th hth =>
      split at h
      · next hin =>
        cases h
        obtain ⟨hin, hkey⟩ := Bool.and_eq_true_iff.mp hin
        exact .sync hth hin (by simpa using hkey)
      · cases h
  | runnablePush t =>
    simp only [step] at h
    split at h
    · cases h
    next th hth =>
      split at h
      · next q done hcall => cases h; exact .runnablePush hth hcall
      · cases h
  | wake t =>
    simp only [step] at h
    split at h
    · cases h
    next th hth =>
      split at h
      · next q k hcall =>
        split at h
        · next hpos => cases h; exact .wake hth hcall hpos
        · cases h
      · cases h
  | pop t =>
    simp only [step] at h
    split at h
    · cases h
    next th hth =>
      split at h
      · next q rest hrole hrun => cases h; exact .pop hth hrole hrun
      · cases h
  | begin t =>
    simp only [step] at h
    split at h
    · cases h
    next th hth =>
      split at h
      · next q hrole => cases h; exact .begin hth hrole
      · cases h
  | finish t =>
    simp only [step] at h
    split at h
    · cases h
    next th hth =>
      split at h
      · next q item hrole hcall =>
        split at h
        · next hserial => cases h; exact .finishSerial hth hrole hcall hserial
        · next hserial =>
          cases h
          exact .finishConcurrent hth hrole hcall (Bool.eq_false_iff.mpr hserial)
      · cases h
  | drainNext t =>
    simp only [step] at h
    split at h
    · cases h
    next th hth =>
      split at h
      · next q hrole => cases h; exact .drainNext hth hrole
      · cases h

end Asteros.Dispatch
