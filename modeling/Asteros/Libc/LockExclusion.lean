import Asteros.Lib.Transition
import Asteros.Libc.Locks
import Mathlib.Data.List.Count

set_option autoImplicit false

/-!
# Threads and their locks

Any number of threads run any programs over any number of mutexes, read-write locks and once
flags. A schedule says which thread takes its next step: its program calls a function of
`pthread.c`, or the function makes its next access of the memory, or the routine that
`pthread_once` has called returns. A routine is part of the program, so it may lock and unlock and
call `pthread_once` for other flags.

A thread is in at most one function at a time, so what happens to one lock is a run of its own
machine, in which the other functions of the threads are not seen.

## Main definitions

* `State`, `step` — the threads and their locks.
* `Allowed`, `Bounded` — what the functions may rely on.

## Main results

* `exclusion` — all locks exclude, in every run.
-/

namespace Asteros.Libc.Locks

open Transition

/-- Where a thread is. -/
inductive Pc where
  /-- In its program. -/
  | program
  /-- In a function on the mutex `m`. -/
  | mutex (m : ℕ) (pc : Mutex.Pc)
  /-- In a function on the read-write lock `l`. -/
  | rwlock (l : ℕ) (pc : Rwlock.Pc)
  /-- In `pthread_once` on the flag `f`, outside the routine. -/
  | once (f : ℕ) (pc : Once.Pc)
  deriving DecidableEq

/-- A thread. -/
structure Thread where
  /-- Where it is. -/
  pc : Pc := .program
  /-- The flags whose routines it is in, the innermost first. -/
  routines : List ℕ := []
  /-- What the last function has returned. -/
  result : ℤ := 0

/-- The threads and their locks. -/
structure State where
  /-- The mutexes. -/
  mutexes : ℕ → Mutex
  /-- The read-write locks. -/
  rwlocks : ℕ → Rwlock
  /-- The once flags. -/
  onces : ℕ → Once
  /-- The threads. -/
  threads : ℕ → Thread

/-- A call of one of the functions. -/
inductive Op where
  /-- `pthread_mutex_lock`, or `pthread_mutex_trylock` if `tries`. -/
  | mutexLock (m : ℕ) (tries : Bool)
  /-- `pthread_mutex_unlock`. -/
  | mutexUnlock (m : ℕ)
  /-- `pthread_rwlock_rdlock`, or `pthread_rwlock_tryrdlock` if `tries`. -/
  | rwlockRdlock (l : ℕ) (tries : Bool)
  /-- `pthread_rwlock_wrlock`, or `pthread_rwlock_trywrlock` if `tries`. -/
  | rwlockWrlock (l : ℕ) (tries : Bool)
  /-- `pthread_rwlock_unlock`. -/
  | rwlockUnlock (l : ℕ)
  /-- `pthread_once`. -/
  | once (f : ℕ)
  deriving DecidableEq

/-- A step of the thread `t`. -/
inductive Action where
  /-- Its program calls a function. -/
  | call (t : ℕ) (op : Op)
  /-- The function makes its next access. -/
  | access (t : ℕ)
  /-- The innermost routine returns. -/
  | finish (t : ℕ)
  deriving DecidableEq

/-- The locks are initialised, and nobody uses them yet. -/
def start (types : ℕ → MutexType) : State :=
  ⟨fun m => .init (types m), fun _ => .init, fun _ => .init, fun _ => {}⟩

/-- The beginning of a function. -/
def State.enter (s : State) : Op → Pc
  | .mutexLock m tries => .mutex m ((s.mutexes m).enterLock tries)
  | .mutexUnlock m => .mutex m (s.mutexes m).enterUnlock
  | .rwlockRdlock l tries => .rwlock l (.rdLoad tries)
  | .rwlockWrlock l tries => .rwlock l (.wrExchange tries)
  | .rwlockUnlock l => .rwlock l .unlockLoad
  | .once f => .once f .exchange

/-- A thread goes where an access takes it. -/
def Thread.go {π : Type} (th : Thread) (wrap : π → Pc) : Next π → Thread
  | .at pc => { th with pc := wrap pc }
  | .returned result => { th with pc := .program, result }
  | .calls => { th with pc := .program }

/-- The program of a thread calls a function. -/
def State.call (s : State) (t : ℕ) (op : Op) : State :=
  { s with threads := Function.update s.threads t { s.threads t with pc := s.enter op } }

/-- An access to a mutex. -/
def State.mutexAccess (s : State) (t m : ℕ) (pc : Mutex.Pc) : State :=
  let r := (s.mutexes m).access t pc
  { s with
    mutexes := Function.update s.mutexes m r.1
    threads := Function.update s.threads t ((s.threads t).go (.mutex m) r.2) }

/-- An access to a read-write lock. -/
def State.rwlockAccess (s : State) (t l : ℕ) (pc : Rwlock.Pc) : State :=
  let r := (s.rwlocks l).access t pc
  { s with
    rwlocks := Function.update s.rwlocks l r.1
    threads := Function.update s.threads t ((s.threads t).go (.rwlock l) r.2) }

/-- An access to a once flag, after which the thread may be in the routine. -/
def State.onceAccess (s : State) (t f : ℕ) (pc : Once.Pc) : State :=
  let r := (s.onces f).access pc
  let th := (s.threads t).go (.once f) r.2
  { s with
    onces := Function.update s.onces f r.1
    threads := Function.update s.threads t
      { th with routines := if r.2 = .calls then f :: th.routines else th.routines } }

/-- The routine of a flag returns to `pthread_once`. -/
def State.finish (s : State) (t f : ℕ) (rest : List ℕ) : State :=
  { s with
    onces := Function.update s.onces f (s.onces f).finish
    threads := Function.update s.threads t
      { s.threads t with pc := .once f .store, routines := rest } }

/-- One step of one thread. -/
def step (s : State) : Action → Option State
  | .call t op => if (s.threads t).pc = .program then some (s.call t op) else none
  | .access t =>
    match (s.threads t).pc with
    | .program => none
    | .mutex m pc => some (s.mutexAccess t m pc)
    | .rwlock l pc => some (s.rwlockAccess t l pc)
    | .once f pc => some (s.onceAccess t f pc)
  | .finish t =>
    if (s.threads t).pc = .program then
      match (s.threads t).routines with
      | [] => none
      | f :: rest => some (s.finish t f rest)
    else none

/-- Only holders unlock, and a normal mutex is not relocked by its holder. -/
def Allowed (s : State) : Action → Prop
  | .call t (.mutexLock m tries) =>
    (s.mutexes m).type = .normal → tries = false → t ∉ (s.mutexes m).holders
  | .call t (.mutexUnlock m) => t ∈ (s.mutexes m).holders
  | .call t (.rwlockUnlock l) => t ∈ (s.rwlocks l).readers ∨ t ∈ (s.rwlocks l).writers
  | .call _ (.rwlockRdlock _ _) | .call _ (.rwlockWrlock _ _) | .call _ (.once _) => True
  | .access _ | .finish _ => True

/-- There are fewer than `2 ^ 31` readers, and fewer levels of recursion. -/
def Bounded (s : State) : Prop :=
  (∀ m, (s.mutexes m).holders.length < 2 ^ 31) ∧ ∀ l, (s.rwlocks l).readers.length < 2 ^ 31

instance decidableAllowed (s : State) : (a : Action) → Decidable (Allowed s a)
  | .call t (.mutexLock m tries) =>
    inferInstanceAs (Decidable ((s.mutexes m).type = .normal → tries = false →
      t ∉ (s.mutexes m).holders))
  | .call t (.mutexUnlock m) => inferInstanceAs (Decidable (t ∈ (s.mutexes m).holders))
  | .call t (.rwlockUnlock l) =>
    inferInstanceAs (Decidable (t ∈ (s.rwlocks l).readers ∨ t ∈ (s.rwlocks l).writers))
  | .call _ (.rwlockRdlock _ _) | .call _ (.rwlockWrlock _ _) | .call _ (.once _) =>
    inferInstanceAs (Decidable True)
  | .access _ | .finish _ => inferInstanceAs (Decidable True)

/-- The step is allowed and leads to a state in bounds. -/
def Legal (s : State) (a : Action) : Prop := Allowed s a ∧ ∀ t, step s a = some t → Bounded t

/-- The steps, one constructor for each kind. -/
inductive Step (s : State) : Action → State → Prop where
  | call (t : ℕ) (op : Op) (hpc : (s.threads t).pc = .program) : Step s (.call t op) (s.call t op)
  | mutex (t m : ℕ) (pc : Mutex.Pc) (hpc : (s.threads t).pc = .mutex m pc) :
    Step s (.access t) (s.mutexAccess t m pc)
  | rwlock (t l : ℕ) (pc : Rwlock.Pc) (hpc : (s.threads t).pc = .rwlock l pc) :
    Step s (.access t) (s.rwlockAccess t l pc)
  | once (t f : ℕ) (pc : Once.Pc) (hpc : (s.threads t).pc = .once f pc) :
    Step s (.access t) (s.onceAccess t f pc)
  | finish (t f : ℕ) (rest : List ℕ) (hpc : (s.threads t).pc = .program)
    (hroutines : (s.threads t).routines = f :: rest) : Step s (.finish t) (s.finish t f rest)

/-- **What a step can do.** -/
theorem Step.of_step {s s' : State} {a : Action} (h : step s a = some s') : Step s a s' := by
  cases a with
  | call t op =>
    simp only [step, Option.ite_none_right_eq_some, Option.some_inj] at h
    obtain ⟨hpc, rfl⟩ := h
    exact .call t op hpc
  | access t =>
    simp only [step] at h
    split at h
    · cases h
    · next m pc hpc =>
      obtain rfl := Option.some_inj.mp h
      exact .mutex t m pc hpc
    · next l pc hpc =>
      obtain rfl := Option.some_inj.mp h
      exact .rwlock t l pc hpc
    · next f pc hpc =>
      obtain rfl := Option.some_inj.mp h
      exact .once t f pc hpc
  | finish t =>
    simp only [step, Option.ite_none_right_eq_some] at h
    obtain ⟨hpc, h⟩ := h
    split at h
    · cases h
    · next f rest hroutines =>
      obtain rfl := Option.some_inj.mp h
      exact .finish t f rest hpc hroutines

/-! ## One lock among the others -/

/-- Where a thread is in the functions of one mutex. -/
def Thread.inMutex (m : ℕ) (th : Thread) : Option Mutex.Pc :=
  match th.pc with
  | .mutex m' pc => if m' = m then some pc else none
  | .program | .rwlock _ _ | .once _ _ => none

/-- Where a thread is in the functions of one read-write lock. -/
def Thread.inRwlock (l : ℕ) (th : Thread) : Option Rwlock.Pc :=
  match th.pc with
  | .rwlock l' pc => if l' = l then some pc else none
  | .program | .mutex _ _ | .once _ _ => none

/-- Where a thread is in `pthread_once` of one flag. -/
def Thread.inOnce (f : ℕ) (th : Thread) : Option Once.Pc :=
  match th.pc with
  | .once f' pc => if f' = f then some pc else none
  | .program | .mutex _ _ | .rwlock _ _ => none

/-- How many routines of one flag a thread is in. -/
def Thread.calls (f : ℕ) (th : Thread) : ℕ := th.routines.count f

section

variable {s s' : State} {a : Action} {t m m' l l' f f' : ℕ} {th : Thread}

/-- What is seen of the threads when one of them has moved. -/
lemma view_update {α : Type} (view : Thread → α) (threads : ℕ → Thread) (t : ℕ) (th : Thread) :
    (fun t' => view (Function.update threads t th t')) =
      Function.update (fun t' => view (threads t')) t (view th) := by
  funext t'
  exact Function.apply_update (fun _ => view) threads t th t'

/-- Nothing is seen of a thread that has moved where it is not seen. -/
lemma view_frame {α : Type} {view : Thread → α} {threads : ℕ → Thread}
    (h : view th = view (threads t)) :
    (fun t' => view (Function.update threads t th t')) = fun t' => view (threads t') := by
  rw [view_update, h]
  exact Function.update_eq_self t fun t' => view (threads t')

/-- After an access to a mutex, the thread is seen there or nowhere. -/
lemma inMutex_go (n : Next Mutex.Pc) :
    (th.go (.mutex m) n).inMutex m' = if m = m' then n.place else none := by
  cases n <;> simp [Thread.go, Thread.inMutex, Next.place]

/-- After an access to a read-write lock, the thread is seen there or nowhere. -/
lemma inRwlock_go (n : Next Rwlock.Pc) :
    (th.go (.rwlock l) n).inRwlock l' = if l = l' then n.place else none := by
  cases n <;> simp [Thread.go, Thread.inRwlock, Next.place]

/-- After an access to a once flag, the thread is seen there or nowhere. -/
lemma inOnce_go (n : Next Once.Pc) (routines : List ℕ) :
    Thread.inOnce f' { th.go (.once f) n with routines } = if f = f' then n.place else none := by
  cases n <;> simp [Thread.go, Thread.inOnce, Next.place]

/-- A thread that goes on among mutexes is not seen elsewhere. -/
lemma go_mutex (n : Next Mutex.Pc) : (th.go (.mutex m) n).inRwlock l = none ∧
    (th.go (.mutex m) n).inOnce f = none ∧ (th.go (.mutex m) n).calls f = th.calls f := by
  cases n <;> exact ⟨rfl, rfl, rfl⟩

/-- A thread that goes on among read-write locks is not seen elsewhere. -/
lemma go_rwlock (n : Next Rwlock.Pc) : (th.go (.rwlock l) n).inMutex m = none ∧
    (th.go (.rwlock l) n).inOnce f = none ∧ (th.go (.rwlock l) n).calls f = th.calls f := by
  cases n <;> exact ⟨rfl, rfl, rfl⟩

/-- A thread that goes on among once flags is not seen elsewhere. -/
lemma go_once (n : Next Once.Pc) (routines : List ℕ) :
    Thread.inMutex m { th.go (.once f) n with routines } = none ∧
      Thread.inRwlock l { th.go (.once f) n with routines } = none := by
  cases n <;> exact ⟨rfl, rfl⟩

/-- An access to a once flag adds the routine that it calls. -/
lemma calls_go (n : Next Once.Pc) :
    Thread.calls f' { th.go (.once f) n with
      routines := if n = .calls then f :: (th.go (.once f) n).routines
        else (th.go (.once f) n).routines } =
      th.calls f' + if f = f' ∧ n = .calls then 1 else 0 := by
  cases n with
  | «at» pc => simp [Thread.go, Thread.calls]
  | returned result => simp [Thread.go, Thread.calls]
  | calls =>
    by_cases hf : f = f'
    · simp [Thread.go, Thread.calls, hf]
    · simp [Thread.go, Thread.calls, hf]

/-! ## Every step keeps the invariants -/

/-- **Every step keeps the mutexes.** -/
theorem mutex_step (hs : Step s a s') (hallowed : Allowed s a) (hbound : Bounded s')
    (hinv : (s.mutexes m).Inv fun t => (s.threads t).inMutex m) :
    (s'.mutexes m).Inv fun t => (s'.threads t).inMutex m := by
  cases hs with
  | call t op hpc =>
    have hnone : (s.threads t).inMutex m = none := by simp [Thread.inMutex, hpc]
    have hframe : Thread.inMutex m { s.threads t with pc := s.enter op } = none →
        (s.mutexes m).Inv fun t' => ((s.call t op).threads t').inMutex m := by
      intro hgone
      rw [State.call, view_frame (hgone.trans hnone.symm)]
      exact hinv
    cases op with
    | mutexLock m' tries =>
      by_cases hm : m' = m
      · subst hm
        rw [State.call, view_update]
        simp only [Thread.inMutex, State.enter, if_true]
        exact hinv.enterLock hnone hallowed
      · exact hframe (by simp [Thread.inMutex, State.enter, hm])
    | mutexUnlock m' =>
      by_cases hm : m' = m
      · subst hm
        rw [State.call, view_update]
        simp only [Thread.inMutex, State.enter, if_true]
        exact hinv.enterUnlock hnone hallowed
      · exact hframe (by simp [Thread.inMutex, State.enter, hm])
    | _ => exact hframe rfl
  | mutex t m' pc hpc =>
    by_cases hm : m' = m
    · subst hm
      have hlen := hbound.1 m'
      simp only [State.mutexAccess, Function.update_self] at hlen ⊢
      rw [view_update, inMutex_go, if_pos rfl]
      exact hinv.access (by simp [Thread.inMutex, hpc]) hlen
    · simp only [State.mutexAccess, Function.update_of_ne (Ne.symm hm)]
      rw [view_frame]
      · exact hinv
      · rw [inMutex_go, if_neg hm]
        simp [Thread.inMutex, hpc, hm]
  | rwlock t l pc hpc =>
    simp only [State.rwlockAccess]
    rw [view_frame]
    · exact hinv
    · rw [(go_rwlock (f := 0) _).1]
      simp [Thread.inMutex, hpc]
  | once t f pc hpc =>
    simp only [State.onceAccess]
    rw [view_frame]
    · exact hinv
    · rw [(go_once (l := 0) _ _).1]
      simp [Thread.inMutex, hpc]
  | finish t f rest hpc hroutines =>
    simp only [State.finish]
    rw [view_frame]
    · exact hinv
    · simp [Thread.inMutex, hpc]

/-- **Every step keeps the read-write locks.** -/
theorem rwlock_step (hs : Step s a s') (hallowed : Allowed s a) (hbound : Bounded s')
    (hinv : (s.rwlocks l).Inv fun t => (s.threads t).inRwlock l) :
    (s'.rwlocks l).Inv fun t => (s'.threads t).inRwlock l := by
  cases hs with
  | call t op hpc =>
    have hnone : (s.threads t).inRwlock l = none := by simp [Thread.inRwlock, hpc]
    have hframe : Thread.inRwlock l { s.threads t with pc := s.enter op } = none →
        (s.rwlocks l).Inv fun t' => ((s.call t op).threads t').inRwlock l := by
      intro hgone
      rw [State.call, view_frame (hgone.trans hnone.symm)]
      exact hinv
    have henter : ∀ pc : Rwlock.Pc, s.enter op = .rwlock l pc → (s.rwlocks l).Knows t pc →
        (s.rwlocks l).Inv fun t' => ((s.call t op).threads t').inRwlock l := by
      intro pc hop hknows
      rw [State.call, view_update, hop]
      simp only [Thread.inRwlock, if_true]
      exact hinv.enter hknows
    cases op with
    | rwlockRdlock l' tries =>
      by_cases hl : l' = l
      · subst hl
        exact henter _ rfl trivial
      · exact hframe (by simp [Thread.inRwlock, State.enter, hl])
    | rwlockWrlock l' tries =>
      by_cases hl : l' = l
      · subst hl
        exact henter _ rfl trivial
      · exact hframe (by simp [Thread.inRwlock, State.enter, hl])
    | rwlockUnlock l' =>
      by_cases hl : l' = l
      · subst hl
        exact henter _ rfl hallowed
      · exact hframe (by simp [Thread.inRwlock, State.enter, hl])
    | _ => exact hframe rfl
  | rwlock t l' pc hpc =>
    by_cases hl : l' = l
    · subst hl
      have hlen := hbound.2 l'
      simp only [State.rwlockAccess, Function.update_self] at hlen ⊢
      rw [view_update, inRwlock_go, if_pos rfl]
      exact hinv.access (by simp [Thread.inRwlock, hpc]) hlen
    · simp only [State.rwlockAccess, Function.update_of_ne (Ne.symm hl)]
      rw [view_frame]
      · exact hinv
      · rw [inRwlock_go, if_neg hl]
        simp [Thread.inRwlock, hpc, hl]
  | mutex t m pc hpc =>
    simp only [State.mutexAccess]
    rw [view_frame]
    · exact hinv
    · rw [(go_mutex (f := 0) _).1]
      simp [Thread.inRwlock, hpc]
  | once t f pc hpc =>
    simp only [State.onceAccess]
    rw [view_frame]
    · exact hinv
    · rw [(go_once (m := 0) _ _).2]
      simp [Thread.inRwlock, hpc]
  | finish t f rest hpc hroutines =>
    simp only [State.finish]
    rw [view_frame]
    · exact hinv
    · simp [Thread.inRwlock, hpc]

/-- **Every step keeps the once flags.** -/
theorem once_step (hs : Step s a s')
    (hinv : (s.onces f).Inv (fun t => (s.threads t).inOnce f) fun t => (s.threads t).calls f) :
    (s'.onces f).Inv (fun t => (s'.threads t).inOnce f) fun t => (s'.threads t).calls f := by
  cases hs with
  | call t op hpc =>
    have hnone : (s.threads t).inOnce f = none := by simp [Thread.inOnce, hpc]
    have hcalls : (fun t' => ((s.call t op).threads t').calls f) =
        fun t' => (s.threads t').calls f := by
      rw [State.call]
      exact view_frame rfl
    rw [hcalls]
    have hlook : ∀ q, Thread.inOnce f { s.threads t with pc := s.enter op } = q → Once.Looks q →
        (s.onces f).Inv (fun t' => ((s.call t op).threads t').inOnce f)
          fun t' => (s.threads t').calls f := by
      rintro q rfl hq
      rw [State.call, view_update]
      exact hinv.looks (by rw [hnone]; trivial) hq
    cases op with
    | once f' =>
      by_cases hf : f' = f
      · exact hlook (some .exchange) (by simp [Thread.inOnce, State.enter, hf]) trivial
      · exact hlook none (by simp [Thread.inOnce, State.enter, hf]) trivial
    | _ => exact hlook none rfl trivial
  | once t f' pc hpc =>
    simp only [State.onceAccess]
    rw [view_update, view_update, inOnce_go, calls_go]
    by_cases hf : f' = f
    · subst hf
      simp only [Function.update_self, if_true, true_and]
      exact hinv.access (by simp [Thread.inOnce, hpc])
    · have hnone : (s.threads t).inOnce f = none := by simp [Thread.inOnce, hpc, hf]
      simp only [Function.update_of_ne (Ne.symm hf), hf, false_and, if_false, Nat.add_zero]
      rw [Function.update_eq_self t fun t' => (s.threads t').calls f]
      exact hinv.looks (by rw [hnone]; trivial) trivial
  | finish t f' rest hpc hroutines =>
    have hnone : (s.threads t).inOnce f = none := by simp [Thread.inOnce, hpc]
    simp only [State.finish]
    rw [view_update, view_update]
    by_cases hf : f' = f
    · subst hf
      have hcall : (s.threads t).calls f' = rest.count f' + 1 := by
        simp [Thread.calls, hroutines]
      have hrest : Thread.calls f' { s.threads t with pc := .once f' .store, routines := rest } =
          (s.threads t).calls f' - 1 := by
        rw [hcall]
        rfl
      simp only [Function.update_self, Thread.inOnce, if_true]
      rw [hrest]
      exact hinv.finish (by omega)
    · have hrest : Thread.calls f { s.threads t with pc := .once f' .store, routines := rest } =
          (s.threads t).calls f := by
        simp [Thread.calls, hroutines, hf]
      simp only [Function.update_of_ne (Ne.symm hf), Thread.inOnce, if_neg hf]
      rw [hrest, Function.update_eq_self t fun t' => (s.threads t').calls f]
      exact hinv.looks (by rw [hnone]; trivial) trivial
  | mutex t m pc hpc =>
    simp only [State.mutexAccess]
    have hgone : ((s.threads t).go (.mutex m) ((s.mutexes m).access t pc).2).inOnce f = none :=
      (go_mutex (l := 0) _).2.1
    have hcalls : ((s.threads t).go (.mutex m) ((s.mutexes m).access t pc).2).calls f =
        (s.threads t).calls f := (go_mutex (l := 0) _).2.2
    rw [view_frame (hgone.trans (by simp [Thread.inOnce, hpc])), view_frame hcalls]
    exact hinv
  | rwlock t l pc hpc =>
    simp only [State.rwlockAccess]
    have hgone : ((s.threads t).go (.rwlock l) ((s.rwlocks l).access t pc).2).inOnce f = none :=
      (go_rwlock (m := 0) _).2.1
    have hcalls : ((s.threads t).go (.rwlock l) ((s.rwlocks l).access t pc).2).calls f =
        (s.threads t).calls f := (go_rwlock (m := 0) _).2.2
    rw [view_frame (hgone.trans (by simp [Thread.inOnce, hpc])), view_frame hcalls]
    exact hinv

end

/-! ## Runs -/

/-- **The locks exclude.** In every run of threads that unlock only what they hold and do not relock
a normal mutex: a mutex is held by at most one thread, and is free exactly when all that was locked
was unlocked; a read-write lock has one writer and the state `-1`, or as many readers as its state
says; and the routine of a once flag runs at most once, and has run and returned before any
`pthread_once` returns.

**Proof sketch.** Each lock has an invariant over the places of the threads in its own functions.
A step of a thread is an access to one lock, which keeps its invariant, and is not seen by the
others. -/
theorem exclusion (types : ℕ → MutexType) {as : List Action} {s : State}
    (hlegal : Along step Legal (start types) as) (hrun : exec step (start types) as = some s) :
    (∀ m, (s.mutexes m).Excludes fun t => (s.threads t).inMutex m) ∧
      (∀ l, (s.rwlocks l).Excludes) ∧ ∀ f, (s.onces f).Excludes := by
  have hinv : (∀ m, (s.mutexes m).Inv fun t => (s.threads t).inMutex m) ∧
      (∀ l, (s.rwlocks l).Inv fun t => (s.threads t).inRwlock l) ∧
      ∀ f, (s.onces f).Inv (fun t => (s.threads t).inOnce f) fun t => (s.threads t).calls f := by
    refine invariant_along (P := fun s =>
      (∀ m, (s.mutexes m).Inv fun t => (s.threads t).inMutex m) ∧
        (∀ l, (s.rwlocks l).Inv fun t => (s.threads t).inRwlock l) ∧
        ∀ f, (s.onces f).Inv (fun t => (s.threads t).inOnce f) fun t => (s.threads t).calls f)
      ?_ ?_ hlegal hrun
    · rintro s a s' ⟨hmutex, hrwlock, honce⟩ ⟨hallowed, hbound⟩ hstep
      have hs := Step.of_step hstep
      have hin := hbound s' hstep
      exact ⟨fun m => mutex_step hs hallowed hin (hmutex m),
        fun l => rwlock_step hs hallowed hin (hrwlock l), fun f => once_step hs (honce f)⟩
    · exact ⟨fun m => Mutex.inv_init (types m), fun _ => Rwlock.inv_init, fun _ => Once.inv_init⟩
  exact ⟨fun m => (hinv.1 m).excludes, fun l => (hinv.2.1 l).excludes,
    fun f => (hinv.2.2 f).excludes⟩

/-! ## Short runs -/

/-- There are at most `n` readers, and at most `n` levels of recursion. -/
def Within (n : ℕ) (s : State) : Prop :=
  (∀ m, (s.mutexes m).holders.length ≤ n) ∧ ∀ l, (s.rwlocks l).readers.length ≤ n

/-- An access to a mutex adds one level of recursion at most. -/
lemma Mutex.length_access_le (t : ℕ) (m : Mutex) (pc : Mutex.Pc) :
    (m.access t pc).1.holders.length ≤ m.holders.length + 1 := by
  have herase : (m.holders.erase t).length ≤ m.holders.length := List.erase_sublist.length_le
  cases pc with
  | countDownStore v =>
    simp only [Mutex.access]
    split
    · exact Nat.le_succ_of_le herase
    · exact Nat.le_succ _
  | release => exact Nat.le_succ_of_le herase
  | _ => simp [Mutex.access]

/-- An access to a read-write lock adds one reader at most. -/
lemma Rwlock.length_access_le (t : ℕ) (l : Rwlock) (pc : Rwlock.Pc) :
    (l.access t pc).1.readers.length ≤ l.readers.length + 1 := by
  cases pc with
  | unlockSub => exact Nat.le_succ_of_le List.erase_sublist.length_le
  | rdExchange tries v =>
    simp only [Rwlock.access]
    split <;> simp
  | wrExchange tries =>
    simp only [Rwlock.access]
    split <;> simp
  | _ => simp [Rwlock.access]

/-- A step adds one at most. -/
lemma within_step {s s' : State} {a : Action} {n : ℕ} (hs : Step s a s') (h : Within n s) :
    Within (n + 1) s' := by
  have hkeep : Within (n + 1) s :=
    ⟨fun m => Nat.le_succ_of_le (h.1 m), fun l => Nat.le_succ_of_le (h.2 l)⟩
  cases hs with
  | call t op hpc => exact hkeep
  | once t f pc hpc => exact hkeep
  | finish t f rest hpc hroutines => exact hkeep
  | mutex t m pc hpc =>
    refine ⟨fun m' => ?_, hkeep.2⟩
    simp only [State.mutexAccess]
    by_cases hm : m' = m
    · rw [hm, Function.update_self]
      exact Nat.le_trans (Mutex.length_access_le t _ pc) (Nat.succ_le_succ (h.1 m))
    · rw [Function.update_of_ne hm]
      exact hkeep.1 m'
  | rwlock t l pc hpc =>
    refine ⟨hkeep.1, fun l' => ?_⟩
    simp only [State.rwlockAccess]
    by_cases hl : l' = l
    · rw [hl, Function.update_self]
      exact Nat.le_trans (Rwlock.length_access_le t _ pc) (Nat.succ_le_succ (h.2 l))
    · rw [Function.update_of_ne hl]
      exact hkeep.2 l'

/-- **A short run stays in bounds**: it is enough that its steps are allowed. -/
theorem legal_of_allowed {s : State} {as : List Action} {n : ℕ} (hn : Within n s)
    (hlen : n + as.length < 2 ^ 31) (hallowed : Along step Allowed s as) :
    Along step Legal s as := by
  induction as generalizing s n with
  | nil => trivial
  | cons a as ih =>
    rw [List.length_cons] at hlen
    have hnext : ∀ t, step s a = some t → Within (n + 1) t := fun t ht =>
      within_step (Step.of_step ht) hn
    refine ⟨⟨hallowed.1, fun t ht => ?_⟩, fun t ht => ?_⟩
    · obtain ⟨hm, hl⟩ := hnext t ht
      exact ⟨fun m => by have := hm m; omega, fun l => by have := hl l; omega⟩
    · exact ih (hnext t ht) (by omega) (hallowed.2 t ht)

/-- Thread 0 locks a recursive mutex twice and unlocks it once, while thread 1 tries to lock it;
then it calls `pthread_once` and takes a read-write lock in the routine, for which thread 1 waits as
a writer. -/
def sharing : List Action :=
  [.call 0 (.mutexLock 0 false), .access 0, .access 0, .access 0, .access 0,
    .call 1 (.mutexLock 0 true), .access 1, .access 1,
    .call 0 (.mutexLock 0 false), .access 0, .access 0, .access 0,
    .call 0 (.mutexUnlock 0), .access 0, .access 0,
    .call 0 (.once 0), .access 0, .call 0 (.rwlockRdlock 0 false), .access 0, .access 0,
    .call 1 (.rwlockWrlock 0 false), .access 1, .finish 0, .access 0]

/-- The locks exclude in that run, at the end of which thread 0 has the mutex and reads. -/
theorem exclusion_sharing : ∃ s, exec step (start fun _ => .recursive) sharing = some s ∧
    ((s.mutexes 0).holders = [0] ∧ (s.rwlocks 0).readers = [0] ∧ (s.onces 0).returned = 1) ∧
    (∀ m, (s.mutexes m).Excludes fun t => (s.threads t).inMutex m) ∧
      (∀ l, (s.rwlocks l).Excludes) ∧ ∀ f, (s.onces f).Excludes := by
  have hrun : (exec step (start fun _ => .recursive) sharing).map (fun s =>
      decide ((s.mutexes 0).holders = [0] ∧ (s.rwlocks 0).readers = [0] ∧
        (s.onces 0).returned = 1)) = some true := by decide +kernel
  obtain ⟨s, hs, hend⟩ := Option.map_eq_some_iff.mp hrun
  have hwithin : Within 0 (start fun _ => .recursive) := ⟨fun _ => le_rfl, fun _ => le_rfl⟩
  have hlegal : Along step Legal (start fun _ => .recursive) sharing :=
    legal_of_allowed hwithin (by decide) (by decide +kernel)
  exact ⟨s, hs, of_decide_eq_true hend, exclusion (fun _ => .recursive) hlegal hs⟩

end Asteros.Libc.Locks
