import Asteros.Lib.Transition
import Asteros.Malloc.HeapInvariant
import Mathlib.Logic.Function.Basic

set_option autoImplicit false

/-!
# The allocator's lock

Every public function of `malloc.c` works on the list of chunks between `malloc_lock` and
`malloc_unlock`, a spinlock on `g_malloc_lock`. Any number of threads call the functions; a
schedule says which thread takes its next step: the atomic exchange, the test of the loop on what
it gave, a step of the critical section, or the store that unlocks.

The loop carries a watchdog: a thread that has failed `LOCK_SPIN_LIMIT` exchanges and one more
goes on as if it had the lock. A holder that is descheduled for that long then meets a second
thread in the critical section. Where no call spins that long, the lock excludes.

## Main definitions

* `Pc`, `LockState` — where the threads are, and the lock.
* `Exclusive` — mutual exclusion, and that a free lock has no holder.
* `Patient` — the step does not break the lock open.

## Main results

* `exclusive_of_patient` — mutual exclusion in the runs whose steps are patient.
* `not_exclusive_descheduled` — a run with two threads in the critical section.
-/

namespace Asteros.Malloc.Lock

open Transition

/-- `LOCK_SPIN_LIMIT`. -/
def lockSpinLimit : ℕ := 20000

/-- Where a thread is. -/
inductive Pc where
  /-- Not in the allocator. -/
  | outside
  /-- In `malloc_lock`, before the exchange. -/
  | locking (spins : ℕ)
  /-- In `malloc_lock`, after the exchange gave `old`. -/
  | exchanged (spins old : ℕ)
  /-- Between the return of `malloc_lock` and the store of `malloc_unlock`. -/
  | inside
  deriving DecidableEq

/-- The lock and the threads. -/
structure LockState where
  /-- `g_malloc_lock`. -/
  gMallocLock : ℕ
  /-- Where each thread is. -/
  pc : ℕ → Pc

/-- A thread has the lock: its exchange gave 0, or it is in the critical section. -/
def Pc.holds : Pc → Bool
  | .inside | .exchanged _ 0 => true
  | .outside | .locking _ | .exchanged _ (_ + 1) => false

/-- The functions take the lock, but for `calloc` when the product of its arguments overflows. A
store of the program is no call. -/
def takesLock : Call → Bool
  | .calloc nmemb size => decide (nmemb * size < 2 ^ 64)
  | .write _ _ => false
  | .malloc _ | .realloc _ _ | .alignedAlloc _ _ | .free _ => true

/-- A step of a thread. -/
inductive Action where
  /-- The thread calls a function of the allocator. -/
  | enter (i : ℕ) (c : Call)
  /-- The atomic exchange. -/
  | exchange (i : ℕ)
  /-- The test of the loop: the exchange gave 0, or the watchdog bites, or the thread pauses. -/
  | test (i : ℕ)
  /-- A step of the critical section. -/
  | work (i : ℕ)
  /-- `malloc_unlock`, and the return. -/
  | unlock (i : ℕ)

/-- A thread moves on. -/
def LockState.goto (s : LockState) (i : ℕ) (pc : Pc) : LockState :=
  { s with pc := Function.update s.pc i pc }

/-- A step. -/
def step (s : LockState) : Action → Option LockState
  | .enter i c =>
    if s.pc i = .outside then
      if takesLock c then some (s.goto i (.locking 0)) else some s
    else none
  | .exchange i =>
    match s.pc i with
    | .locking spins => some ({ s with gMallocLock := 1 }.goto i (.exchanged spins s.gMallocLock))
    | _ => none
  | .test i =>
    match s.pc i with
    | .exchanged spins old =>
      if old = 0 then some (s.goto i .inside)
      else
        let spins := spins + 1
        if lockSpinLimit < spins then some (s.goto i .inside)
        else some (s.goto i (.locking spins))
    | _ => none
  | .work i => if s.pc i = .inside then some s else none
  | .unlock i =>
    if s.pc i = .inside then some ({ s with gMallocLock := 0 }.goto i .outside) else none

/-- Before the first call. -/
def initial : LockState where
  gMallocLock := 0
  pc _ := .outside

/-- Mutual exclusion: at most one thread is in the critical section, and none while the lock is
free. -/
structure Exclusive (s : LockState) : Prop where
  /-- Two threads in the critical section are one. -/
  alone : ∀ i j, s.pc i = .inside → s.pc j = .inside → i = j
  /-- Nobody is in the critical section while the lock is free. -/
  free : s.gMallocLock = 0 → ∀ i, s.pc i ≠ .inside

/-- A step does not break the lock open: no exchange of a call fails after `LOCK_SPIN_LIMIT` of it
have. -/
def Patient (s : LockState) : Action → Prop
  | .test i =>
    match s.pc i with
    | .exchanged spins old => old ≠ 0 → spins < lockSpinLimit
    | _ => True
  | _ => True

instance (s : LockState) (a : Action) : Decidable (Patient s a) := by
  unfold Patient
  split
  · split <;> infer_instance
  · infer_instance

section

variable {s s' : LockState} {a : Action} {i j : ℕ} {pc : Pc}

/-- The thread that moves. -/
@[simp] lemma pc_goto_same : (s.goto i pc).pc i = pc := by
  simp [LockState.goto]

/-- The other threads. -/
@[simp] lemma pc_goto_ne (h : j ≠ i) : (s.goto i pc).pc j = s.pc j := by
  simp [LockState.goto, h]

/-- Moving on does not touch the lock. -/
@[simp] lemma gMallocLock_goto : (s.goto i pc).gMallocLock = s.gMallocLock := rfl

/-- Who has the lock, from the exchange on. -/
structure Holder (s : LockState) : Prop where
  /-- Two threads that have the lock are one. -/
  alone : ∀ i j, (s.pc i).holds → (s.pc j).holds → i = j
  /-- Nobody has the lock while it is free. -/
  free : s.gMallocLock = 0 → ∀ i, ¬(s.pc i).holds

/-- A thread that moves to a place where it does not have the lock. -/
lemma Holder.leave (h : Holder s) (hpc : pc.holds = false) : Holder (s.goto i pc) := by
  have hpart : ∀ k, ((s.goto i pc).pc k).holds → (s.pc k).holds := by
    intro k hk
    by_cases hki : k = i
    · subst hki
      rw [pc_goto_same, hpc] at hk
      cases hk
    · rwa [pc_goto_ne hki] at hk
  exact ⟨fun k l hk hl => h.alone k l (hpart k hk) (hpart l hl),
    fun hfree k hk => h.free hfree k (hpart k hk)⟩

/-- A thread that has the lock moves on with it. -/
lemma Holder.stay (h : Holder s) (hold : (s.pc i).holds) : Holder (s.goto i pc) := by
  have hpart : ∀ k, ((s.goto i pc).pc k).holds → (s.pc k).holds := by
    intro k hk
    by_cases hki : k = i
    · subst hki
      exact hold
    · rwa [pc_goto_ne hki] at hk
  exact ⟨fun k l hk hl => h.alone k l (hpart k hk) (hpart l hl),
    fun hfree k hk => h.free hfree k (hpart k hk)⟩

/-- **Every patient step** leaves the lock with one holder at most.

**Proof sketch.** Only an exchange that gives 0 makes a holder, and then there was none; only the
store of `malloc_unlock` frees the lock, and it is the holder's. -/
theorem holder_step (h : Holder s) (hp : Patient s a) (hs : step s a = some s') : Holder s' := by
  cases a with
  | enter i c =>
    simp only [step] at hs
    split at hs
    · split at hs
      · cases hs
        exact h.leave rfl
      · cases hs
        exact h
    · cases hs
  | exchange i =>
    simp only [step] at hs
    split at hs
    · next spins hpc =>
      cases hs
      by_cases hfree : s.gMallocLock = 0
      · -- the lock was free, so the thread is the only one to have it now
        have hnone := h.free hfree
        have honly : ∀ k, (({ s with gMallocLock := 1 }.goto i
            (.exchanged spins s.gMallocLock)).pc k).holds → k = i := by
          intro k hk
          by_contra hki
          rw [pc_goto_ne hki] at hk
          exact hnone k hk
        refine ⟨fun k l hk hl => (honly k hk).trans (honly l hl).symm, fun hzero => ?_⟩
        cases hzero
      · obtain ⟨old, hold⟩ := Nat.exists_eq_succ_of_ne_zero hfree
        have hlocked : Holder { s with gMallocLock := 1 } :=
          ⟨h.alone, fun hzero => by cases hzero⟩
        exact hlocked.leave (by rw [hold]; rfl)
    · cases hs
  | test i =>
    simp only [step] at hs
    split at hs
    · next spins old hpc =>
      split at hs
      · next hzero =>
        cases hs
        exact h.stay (by rw [hpc, hzero]; rfl)
      · next hne =>
        simp only [Patient, hpc] at hp
        have hlt := hp hne
        rw [if_neg (by omega)] at hs
        cases hs
        exact h.leave rfl
    · cases hs
  | work i =>
    simp only [step] at hs
    split at hs
    · cases hs
      exact h
    · cases hs
  | unlock i =>
    simp only [step] at hs
    split at hs
    · next hpc =>
      cases hs
      have hnone : ∀ k, ¬(({ s with gMallocLock := 0 }.goto i .outside).pc k).holds := by
        intro k hk
        by_cases hki : k = i
        · subst hki
          rw [pc_goto_same] at hk
          cases hk
        · rw [pc_goto_ne hki] at hk
          exact hki (h.alone k i hk (by rw [hpc]; rfl))
      exact ⟨fun k l hk => absurd hk (hnone k), fun _ => hnone⟩
    · cases hs

/-- A thread in the critical section has the lock. -/
lemma Holder.exclusive (h : Holder s) : Exclusive s where
  alone i j hi hj := h.alone i j (by rw [hi]; rfl) (by rw [hj]; rfl)
  free hfree i hi := h.free hfree i (by rw [hi]; rfl)

end

/-- **Mutual exclusion** for any number of threads and in every interleaving in which no call of
`malloc_lock` fails more than `LOCK_SPIN_LIMIT` exchanges. -/
theorem exclusive_of_patient {as : List Action} {s : LockState}
    (hpatient : Along step Patient initial as) (h : exec step initial as = some s) :
    Exclusive s := by
  have hinitial : Holder initial := by
    constructor
    · intro i j hi
      cases hi
    · intro _ i hi
      cases hi
  exact (invariant_along (fun s a t hs hC ha => holder_step hs hC ha) hinitial hpatient h).exclusive

/-- A thread fails one exchange, and gets through when the other has unlocked. -/
def contended : List Action :=
  [.enter 0 (.malloc 1), .enter 1 (.free 0), .exchange 0, .exchange 1, .test 0, .test 1, .work 0,
    .unlock 0, .exchange 1, .test 1]

/-- A short wait is patient. -/
theorem exclusive_of_patient_contended :
    ∃ s, exec step initial contended = some s ∧ Exclusive s := by
  have hpatient : Along step Patient initial contended := by decide
  exact ⟨_, rfl, exclusive_of_patient hpatient rfl⟩

/-! ## The watchdog -/

/-- A thread exchanges and tests, a number of times. -/
def spin (i : ℕ) : ℕ → List Action
  | 0 => []
  | n + 1 => .exchange i :: .test i :: spin i n

/-- An exchange fails while the lock is held. -/
lemma step_exchange {s : LockState} {i k : ℕ} (hlock : s.gMallocLock = 1)
    (hpc : s.pc i = .locking k) :
    step s (.exchange i) = some (s.goto i (.exchanged k 1)) := by
  simp only [step, hpc, hlock]
  rw [← hlock]

/-- While another thread holds the lock, a thread spins up to the limit. -/
lemma exec_spin {s : LockState} {i k n : ℕ} (hlock : s.gMallocLock = 1)
    (hpc : s.pc i = .locking k) (hlimit : k + n ≤ lockSpinLimit) :
    exec step s (spin i n) = some (s.goto i (.locking (k + n))) := by
  induction n generalizing s k with
  | zero =>
    have hsame : s.goto i (.locking (k + 0)) = s := by
      rw [LockState.goto, Nat.add_zero, ← hpc, Function.update_eq_self]
    rw [hsame]
    rfl
  | succ n ih =>
    have htest : step (s.goto i (.exchanged k 1)) (.test i) =
        some (s.goto i (.locking (k + 1))) := by
      simp only [step, pc_goto_same]
      rw [if_neg (by decide), if_neg (by omega)]
      simp [LockState.goto]
    have hrest := ih (s := s.goto i (.locking (k + 1))) hlock pc_goto_same (by omega)
    rw [spin, exec, step_exchange hlock hpc]
    show exec step (s.goto i (.exchanged k 1)) (.test i :: spin i n) = _
    rw [exec, htest]
    show exec step (s.goto i (.locking (k + 1))) (spin i n) = _
    rw [hrest]
    simp [LockState.goto, Nat.add_assoc, Nat.add_comm 1]

/-- The holder is descheduled, and another thread spins through the limit. -/
def descheduledHolder : List Action :=
  [Action.enter 0 (.malloc 1), .exchange 0, .test 0, .enter 1 (.malloc 1)] ++
    (spin 1 lockSpinLimit ++ [Action.exchange 1, .test 1])

/-- The watchdog: after `LOCK_SPIN_LIMIT` failed exchanges and one more, a thread goes on. -/
lemma exec_watchdog {s : LockState} {i : ℕ} (hlock : s.gMallocLock = 1)
    (hpc : s.pc i = .locking lockSpinLimit) :
    exec step s [.exchange i, .test i] = some (s.goto i .inside) := by
  have htest : step (s.goto i (.exchanged lockSpinLimit 1)) (.test i) = some (s.goto i .inside) := by
    simp only [step, pc_goto_same]
    rw [if_neg (by decide), if_pos (by omega)]
    simp [LockState.goto]
  rw [exec, step_exchange hlock hpc]
  show exec step (s.goto i (.exchanged lockSpinLimit 1)) [.test i] = _
  rw [exec, htest]
  rfl

/-- The watchdog lets the spinning thread in beside the holder. -/
lemma exec_descheduledHolder :
    ∃ s, exec step initial descheduledHolder = some s ∧ s.pc 0 = .inside ∧ s.pc 1 = .inside := by
  obtain ⟨held, hheld, hlock, hholder, hpc⟩ : ∃ held, exec step initial
      [.enter 0 (.malloc 1), .exchange 0, .test 0, .enter 1 (.malloc 1)] = some held ∧
        held.gMallocLock = 1 ∧ held.pc 0 = .inside ∧ held.pc 1 = .locking 0 :=
    ⟨_, rfl, rfl, rfl, rfl⟩
  have hspin := exec_spin hlock hpc (show 0 + lockSpinLimit ≤ lockSpinLimit from le_rfl)
  rw [Nat.zero_add] at hspin
  have hlast := exec_watchdog (s := held.goto 1 (.locking lockSpinLimit)) hlock pc_goto_same
  refine ⟨_, exec_append.mpr ⟨held, hheld, exec_append.mpr ⟨_, hspin, hlast⟩⟩, ?_, pc_goto_same⟩
  rw [pc_goto_ne (by decide), pc_goto_ne (by decide)]
  exact hholder

/-- Two threads are in the critical section when the holder is descheduled for long enough. -/
theorem not_exclusive_descheduled :
    ¬∀ as s, exec step initial as = some s → Exclusive s := by
  intro h
  obtain ⟨s, hs, hzero, hone⟩ := exec_descheduledHolder
  exact absurd ((h descheduledHolder s hs).alone 0 1 hzero hone) (by decide)

end Asteros.Malloc.Lock
