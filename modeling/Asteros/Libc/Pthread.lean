import Asteros.Lib.Transition
import Mathlib.Logic.Function.Basic

set_option autoImplicit false

/-!
# Threads and their stacks

`pthread.c`: a thread runs on a stack that `pthread_create` mapped for it, and cannot unmap it
itself. It stores `finished` as its last access to its `struct __pthread` and goes on to terminate;
its stack is unmapped, and the struct freed, by the call of `pthread_join` that waits for it, or,
if it is detached, by a later call of `pthread_create`, which takes the finished threads that are
detached off `g_list`.

A state has a program counter for every thread, which says where in a call of the library it is. A
critical section of `g_list_lock` is one step, as every access to `g_list` is in one; each other
access to a struct and each call of the kernel is a step of its own. Every call of `pthread_create`
that gets that far makes a thread with a new number, which stands for its stack and its struct. What
a thread returns and its kernel port are left out, as nothing here depends on them.

## Main definitions

* `Thread`, `Process` — the data.
* `Pc` — where a thread is in a call.
* `step` — the steps of all threads.
-/

namespace Asteros.Libc.Pthread

open Function

/-- Who makes a call: the main thread, or a thread that was created. -/
abbrev Caller := Option ℕ

/-- How far a thread has come. -/
inductive Phase where
  /-- The kernel has not started it. -/
  | unborn
  /-- It runs `start_routine`. -/
  | running
  /-- It has stored `finished`, and is on its stack still, on the way to `bsdthread_terminate`. -/
  | stored
  /-- It has terminated. -/
  | terminated
  deriving DecidableEq

/-- A thread with its `struct __pthread` and its stack. -/
structure Thread where
  /-- `detached`. -/
  detached : Bool
  /-- `finished`. -/
  finished : Bool
  /-- How far the thread has come. -/
  phase : Phase
  /-- The stack is mapped. -/
  mapped : Bool
  /-- History: how often the stack was unmapped. -/
  unmaps : ℕ
  /-- History: how often the struct was freed. -/
  frees : ℕ
  /-- History: the thread was joined or detached, or created detached. -/
  owned : Bool
  deriving DecidableEq

/-- What a call goes on with once it has reclaimed the threads in its hands. -/
inductive Cont where
  /-- The rest of `pthread_create`, with the detach state that was asked for. -/
  | create (detached : Bool)
  /-- Nothing. -/
  | done
  deriving DecidableEq

/-- Where a thread is in a call of the library. -/
inductive Pc where
  /-- In none. -/
  | idle
  /-- In a loop of `munmap` and `free`, with the threads that are left. -/
  | unmapping (dead : List ℕ) (cont : Cont)
  /-- In that loop, behind the `munmap` of the thread. -/
  | freeing (t : ℕ) (dead : List ℕ) (cont : Cont)
  /-- In `pthread_create`, behind `mmap`. -/
  | mapped (t : ℕ) (detached : Bool)
  /-- Behind a `calloc` that failed. -/
  | abandoning (t : ℕ)
  /-- Behind the assignments to the struct. -/
  | filled (t : ℕ)
  /-- Behind `__pthread_register`. -/
  | registered (t : ℕ)
  /-- Behind a `bsdthread_create` that failed. -/
  | failed (t : ℕ)
  /-- In the loop of `pthread_join`. -/
  | joining (t : ℕ)
  /-- Behind that loop. -/
  | joined (t : ℕ)
  deriving DecidableEq

/-- The process. -/
structure Process where
  /-- The threads. -/
  threads : ℕ → Thread
  /-- The number of the next thread. -/
  next : ℕ
  /-- `g_list`. -/
  list : List ℕ
  /-- Where each thread is. -/
  pc : Caller → Pc

/-- A thread before its stack is mapped. -/
def Thread.unused : Thread := ⟨false, false, .unborn, false, 0, 0, false⟩

/-- At first. -/
def start : Process := ⟨fun _ => .unused, 0, [], fun _ => .idle⟩

namespace Process

variable (s : Process)

/-- The process with a thread at another place. -/
def setPc (u : Caller) (p : Pc) : Process := { s with pc := update s.pc u p }

/-- The process with another state of a thread. -/
def setThread (t : ℕ) (th : Thread) : Process := { s with threads := update s.threads t th }

/-- The thread runs, and is in no call. -/
def canCall (u : Caller) : Bool :=
  (u.all fun t => (s.threads t).phase == .running) && s.pc u == .idle

/-- The thread can be reaped: it is detached and has finished. -/
def isDead (t : ℕ) : Bool := (s.threads t).detached && (s.threads t).finished

end Process

/-- A step of a thread. -/
inductive Act where
  /-- `pthread_create` as far as the critical section of `reap_finished_detached`. -/
  | create (u : Caller) (detached : Bool)
  /-- `mmap`. -/
  | mmap (u : Caller)
  /-- `mmap` that fails. -/
  | mmapFails (u : Caller)
  /-- `calloc` and the assignments to the struct. -/
  | calloc (u : Caller)
  /-- `calloc` that fails. -/
  | callocFails (u : Caller)
  /-- `__pthread_register`. -/
  | register (u : Caller)
  /-- `bsdthread_create`. -/
  | bsdthreadCreate (u : Caller)
  /-- `bsdthread_create` that fails. -/
  | bsdthreadCreateFails (u : Caller)
  /-- `pthread_join` as far as its loop. -/
  | join (u : Caller) (t : ℕ)
  /-- The loop of `pthread_join` ends. -/
  | see (u : Caller)
  /-- `__pthread_unregister`. -/
  | unregister (u : Caller)
  /-- `munmap`. -/
  | munmap (u : Caller)
  /-- `free`. -/
  | free (u : Caller)
  /-- The call returns. -/
  | return (u : Caller)
  /-- `pthread_detach`. -/
  | detach (u : Caller) (t : ℕ)
  /-- The thread stores `finished`. -/
  | finish (t : ℕ)
  /-- `bsdthread_terminate`. -/
  | terminate (t : ℕ)
  deriving DecidableEq

/-- One step. A handle is that of a thread which was started. -/
def step (s : Process) : Act → Option Process
  | .create u detached =>
    if s.canCall u then
      some { s.setPc u (.unmapping (s.list.filter s.isDead).reverse (.create detached)) with
        list := s.list.filter fun t => !s.isDead t }
    else none
  | .mmap u =>
    match s.pc u with
    | .unmapping [] (.create detached) =>
      some { (s.setPc u (.mapped s.next detached)).setThread s.next
          { Thread.unused with mapped := true } with next := s.next + 1 }
    | _ => none
  | .mmapFails u =>
    match s.pc u with
    | .unmapping [] (.create _) => some (s.setPc u .idle)
    | _ => none
  | .calloc u =>
    match s.pc u with
    | .mapped t detached =>
      some ((s.setPc u (.filled t)).setThread t
        { s.threads t with detached := detached, owned := detached })
    | _ => none
  | .callocFails u =>
    match s.pc u with
    | .mapped t _ => some (s.setPc u (.abandoning t))
    | _ => none
  | .register u =>
    match s.pc u with
    | .filled t => some { s.setPc u (.registered t) with list := t :: s.list }
    | _ => none
  | .bsdthreadCreate u =>
    match s.pc u with
    | .registered t =>
      some ((s.setPc u .idle).setThread t { s.threads t with phase := .running })
    | _ => none
  | .bsdthreadCreateFails u =>
    match s.pc u with
    | .registered t => some (s.setPc u (.failed t))
    | _ => none
  | .join u t =>
    if s.canCall u ∧ (s.threads t).phase ≠ .unborn then
      -- EDEADLK
      if u = some t then some s
      else some ((s.setPc u (.joining t)).setThread t { s.threads t with owned := true })
    else none
  | .see u =>
    match s.pc u with
    | .joining t => if (s.threads t).finished then some (s.setPc u (.joined t)) else none
    | _ => none
  | .unregister u =>
    match s.pc u with
    | .failed t | .joined t =>
      some { s.setPc u (.unmapping [t] .done) with list := s.list.erase t }
    | _ => none
  | .munmap u =>
    match s.pc u with
    | .unmapping (t :: dead) cont =>
      some ((s.setPc u (.freeing t dead cont)).setThread t
        { s.threads t with mapped := false, unmaps := (s.threads t).unmaps + 1 })
    | .abandoning t =>
      some ((s.setPc u .idle).setThread t
        { s.threads t with mapped := false, unmaps := (s.threads t).unmaps + 1 })
    | _ => none
  | .free u =>
    match s.pc u with
    | .freeing t dead cont =>
      some ((s.setPc u (.unmapping dead cont)).setThread t
        { s.threads t with frees := (s.threads t).frees + 1 })
    | _ => none
  | .return u =>
    match s.pc u with
    | .unmapping [] .done => some (s.setPc u .idle)
    | _ => none
  | .detach u t =>
    if s.canCall u ∧ (s.threads t).phase ≠ .unborn then
      some (s.setThread t { s.threads t with detached := true, owned := true })
    else none
  | .finish t =>
    if (s.threads t).phase = .running ∧ s.pc (some t) = .idle then
      some (s.setThread t { s.threads t with finished := true, phase := .stored })
    else none
  | .terminate t =>
    if (s.threads t).phase = .stored then
      some (s.setThread t { s.threads t with phase := .terminated })
    else none

/-- The threads whose stacks a call has in its hands: mapped and not registered, or taken off the
list and not unmapped. -/
def Pc.inHands : Pc → List ℕ
  | .mapped t _ | .abandoning t | .filled t => [t]
  | .unmapping dead _ | .freeing _ dead _ => dead
  | .idle | .registered _ | .failed _ | .joining _ | .joined _ => []

/-- A thread is joined or detached once, as more is not defined; and none that a join or a reaping
finds to have finished has `bsdthread_terminate` still before it. -/
def Proper (s : Process) : Act → Prop
  | .create _ _ => ∀ t ∈ s.list, s.isDead t = true → (s.threads t).phase ≠ .stored
  | .join u t => u = some t ∨ (s.threads t).owned = false
  | .see u => ∀ t ∈ s.list, s.pc u = .joining t → (s.threads t).phase ≠ .stored
  | .detach _ t => (s.threads t).owned = false
  | _ => True

instance : DecidableRel Proper := fun s a => by
  cases a <;> unfold Proper <;> infer_instance

/-- What is kept of the stacks and the structs: they are reclaimed once, and not before the thread
is off its stack or could not be started; and the list has the threads with a stack that no call has
in its hands. -/
structure Kept (s : Process) : Prop where
  /-- A stack is unmapped once. -/
  unmaps_le : ∀ t, (s.threads t).unmaps ≤ 1
  /-- A struct is freed once. -/
  frees_le : ∀ t, (s.threads t).frees ≤ 1
  /-- Not before the last instruction of the thread, unless it could not be started. -/
  reclaimed : ∀ t, 0 < (s.threads t).unmaps ∨ 0 < (s.threads t).frees →
    (s.threads t).phase = .terminated ∨ (s.threads t).phase = .unborn
  /-- The list. -/
  listed : ∀ t, t ∈ s.list ↔ (s.threads t).mapped = true ∧ ∀ u, t ∉ (s.pc u).inHands

end Asteros.Libc.Pthread
