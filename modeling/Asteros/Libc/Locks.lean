import Mathlib.Algebra.Ring.Int.Defs
import Mathlib.Data.List.Defs
import Mathlib.Algebra.Ring.Nat
import Mathlib.Logic.Function.Basic
import Mathlib.Tactic.SplitIfs

set_option autoImplicit false

/-!
# Mutexes, read-write locks and once flags

The three lock types of `pthread.c`, each as a small machine: a thread inside one of its functions
is at a place between two accesses of the memory, and an access takes it to the next place or out
of the function. A function that another thread can interleave with is never looked at as a whole.

A mutex is a spin flag with the owner and the recursion count beside it, both of which only the
thread that has the flag writes; a read-write lock is one number, `-1` for a writer and otherwise
the count of readers; a once flag goes from 0 over 1 to 2. What a thread has locked and not yet
unlocked is not in the source: the lists of holders record it.

## Main definitions

* `Mutex.access`, `Rwlock.access`, `Once.access` — one access of the memory.
* `Mutex.Excludes`, `Rwlock.Excludes`, `Once.Excludes` — what the locks are for.
* `Mutex.Inv`, `Rwlock.Inv`, `Once.Inv` — why they do it: what holds between any two accesses.

## Main results

* `Mutex.Inv.access`, `Rwlock.Inv.access`, `Once.Inv.access` — every access keeps the invariant.
* `Mutex.Inv.excludes`, `Rwlock.Inv.excludes`, `Once.Inv.excludes` — and the invariant says that the
  lock excludes.
-/

namespace Asteros.Libc.Locks

/-- What an `int` keeps of a number. -/
def toInt (n : ℤ) : ℤ := n.bmod (2 ^ 32)

/-- A number that fits is kept. -/
lemma toInt_of_lt {n : ℤ} (hlow : -(2 ^ 31) ≤ n) (hhigh : n < 2 ^ 31) : toInt n = n :=
  Int.bmod_eq_of_le (by omega) (by omega)

/-- `EBUSY`. -/
def ebusy : ℤ := 16

/-- Where an access takes a thread. -/
inductive Next (π : Type) where
  /-- To another place of the function. -/
  | at (pc : π)
  /-- Out of the function, with its result. -/
  | returned (result : ℤ)
  /-- Into the routine that the function calls. -/
  | calls
  deriving DecidableEq

/-- The place of a thread that is still in the function. -/
def Next.place {π : Type} : Next π → Option π
  | .at pc => some pc
  | .returned _ | .calls => none

/-! ## Mutexes -/

/-- `m->type`. -/
inductive MutexType where
  /-- `PTHREAD_MUTEX_NORMAL`. -/
  | normal
  /-- `PTHREAD_MUTEX_RECURSIVE`. -/
  | recursive
  deriving DecidableEq

/-- `pthread_mutex_t`. -/
structure Mutex where
  /-- `owned`. -/
  owned : ℕ
  /-- `owner`: a thread, or a null pointer. -/
  owner : Option ℕ
  /-- `count`. -/
  count : ℤ
  /-- `type`, which is set before the mutex is used. -/
  type : MutexType
  /-- The threads that hold the mutex, with one entry for each lock that was not yet undone. -/
  holders : List ℕ

namespace Mutex

/-- A mutex that was initialised. -/
def init (type : MutexType) : Mutex := ⟨0, none, 0, type, []⟩

/-- Where a thread is in `pthread_mutex_lock`, `pthread_mutex_trylock` or
`pthread_mutex_unlock`. -/
inductive Pc where
  /-- Before `m->owner == (void *)self`, in the second function if `tries`. -/
  | readOwner (tries : Bool)
  /-- Before the load of `m->count++`. -/
  | countUp
  /-- Before its store. -/
  | countUpStore (v : ℤ)
  /-- Before the exchange. -/
  | exchange (tries : Bool)
  /-- Before `m->owner = (void *)self`. -/
  | setOwner
  /-- Before `m->count = 1`. -/
  | setCount
  /-- Before the load of `--m->count`. -/
  | countDown
  /-- Before its store. -/
  | countDownStore (v : ℤ)
  /-- Before `m->owner = (void *)0`. -/
  | clearOwner
  /-- Before the store to `m->owned`. -/
  | release
  deriving DecidableEq

/-- `pthread_mutex_lock` and `pthread_mutex_trylock` begin here: the owner of a normal mutex is not
looked at. -/
def enterLock (m : Mutex) (tries : Bool) : Pc :=
  if m.type = .recursive then .readOwner tries else .exchange tries

/-- `pthread_mutex_unlock` begins here: the count of a normal mutex is not looked at. -/
def enterUnlock (m : Mutex) : Pc := if m.type = .recursive then .countDown else .clearOwner

/-- One access of the thread `self`. -/
def access (self : ℕ) (m : Mutex) : Pc → Mutex × Next Pc
  | .readOwner tries =>
    (m, .at (if m.owner = some self then .countUp else .exchange tries))
  | .countUp => (m, .at (.countUpStore m.count))
  | .countUpStore v =>
    ({ m with count := toInt (v + 1), holders := self :: m.holders }, .returned 0)
  | .exchange tries =>
    ({ m with owned := 1 },
      if m.owned = 0 then .at .setOwner
      else if tries then .returned ebusy else .at (.exchange tries))
  | .setOwner => ({ m with owner := some self }, .at .setCount)
  | .setCount => ({ m with count := 1, holders := self :: m.holders }, .returned 0)
  | .countDown => (m, .at (.countDownStore m.count))
  | .countDownStore v =>
    if 0 < toInt (v - 1) then
      ({ m with count := toInt (v - 1), holders := m.holders.erase self }, .returned 0)
    else ({ m with count := toInt (v - 1) }, .at .clearOwner)
  | .clearOwner => ({ m with owner := none }, .at .release)
  | .release => ({ m with owned := 0, holders := m.holders.erase self }, .returned 0)

/-- The exchange has given the thread the flag, and the function has not returned yet. -/
def Pc.acquiring : Pc → Bool
  | .setOwner | .setCount => true
  | .readOwner _ | .countUp | .countUpStore _ | .exchange _ => false
  | .countDown | .countDownStore _ | .clearOwner | .release => false

/-- **The mutex excludes**, with the threads where `v` says: all holders are one thread, and the
mutex is free exactly when everything that was locked was unlocked. -/
def Excludes (m : Mutex) (v : ℕ → Option Pc) : Prop :=
  (∀ t ∈ m.holders, ∀ t' ∈ m.holders, t = t') ∧
    (m.owned = 0 ↔ m.holders = [] ∧ ∀ t p, v t = some p → p.acquiring = false)

/-- A thread that has nothing of the mutex. -/
def Outside (m : Mutex) : Option Pc → Prop
  | none => True
  | some (.readOwner _) => m.type = .recursive
  | some (.exchange _) => True
  | some _ => False

/-- The thread holds the mutex, and is not about to give it up. -/
def Held (m : Mutex) (h : ℕ) : Prop :=
  ∃ n : ℕ, m.holders = List.replicate (n + 1) h ∧ m.owner = some h ∧
    (m.type = .recursive → m.count = n + 1) ∧ (m.type = .normal → n = 0)

/-- The thread that has the flag. -/
def Inside (m : Mutex) (h : ℕ) : Option Pc → Prop
  | none => m.Held h
  | some (.readOwner _) | some .countUp | some .countDown => m.Held h ∧ m.type = .recursive
  | some (.countUpStore v) | some (.countDownStore v) =>
    m.Held h ∧ m.type = .recursive ∧ v = m.count
  | some (.exchange tries) => m.Held h ∧ tries = true
  | some .setOwner => m.holders = [] ∧ m.owner = none
  | some .setCount => m.holders = [] ∧ m.owner = some h
  | some .clearOwner => m.holders = [h] ∧ m.owner = some h
  | some .release => m.holders = [h] ∧ m.owner = none

/-- What holds of a mutex between any two accesses: it is free and nobody has anything of it, or
one thread has the flag and the others have nothing. -/
inductive Inv (m : Mutex) (v : ℕ → Option Pc) : Prop where
  /-- The mutex is free. -/
  | free (howned : m.owned = 0) (hholders : m.holders = []) (howner : m.owner = none)
    (hothers : ∀ t, m.Outside (v t))
  /-- The thread `h` has the flag. -/
  | taken (h : ℕ) (howned : m.owned ≠ 0) (hinside : m.Inside h (v h))
    (hothers : ∀ t, t ≠ h → m.Outside (v t))

section

variable {m : Mutex} {v : ℕ → Option Pc} {t h : ℕ} {p : Pc}

/-- Being outside only depends on the type. -/
lemma Outside.congr {m' : Mutex} {o : Option Pc} (ho : m.Outside o) (htype : m'.type = m.type) :
    m'.Outside o := by
  unfold Outside at ho ⊢
  rw [htype]
  exact ho

/-- A thread that has nothing has not taken the flag. -/
lemma Outside.not_acquiring (ho : m.Outside (some p)) : p.acquiring = false := by
  cases p <;> first | rfl | exact ho.elim

/-- What the thread that has the flag holds, if anything. -/
lemma Inside.held_or {o : Option Pc} (hin : m.Inside h o) : m.Held h ∨
    (m.holders = [] ∨ m.holders = [h]) ∧ (m.owner = none ∨ m.owner = some h) := by
  cases o with
  | none => exact Or.inl hin
  | some p =>
    cases p with
    | setOwner => exact Or.inr ⟨Or.inl hin.1, Or.inl hin.2⟩
    | setCount => exact Or.inr ⟨Or.inl hin.1, Or.inr hin.2⟩
    | clearOwner => exact Or.inr ⟨Or.inr hin.1, Or.inr hin.2⟩
    | release => exact Or.inr ⟨Or.inr hin.1, Or.inl hin.2⟩
    | _ => exact Or.inl hin.1

/-- Whoever holds the mutex is the thread that has the flag. -/
lemma Inside.eq_of_mem {o : Option Pc} (hin : m.Inside h o) (ht : t ∈ m.holders) : t = h := by
  rcases hin.held_or with ⟨n, hn, -⟩ | ⟨hnone | hone, -⟩
  · rw [hn] at ht
    exact List.eq_of_mem_replicate ht
  · simp [hnone] at ht
  · simpa [hone] using ht

/-- The thread that has the flag is its owner, or nobody is. -/
lemma Inside.owner {o : Option Pc} (hin : m.Inside h o) : m.owner = some h ∨ m.owner = none := by
  rcases hin.held_or with ⟨_, _, howner, _⟩ | ⟨-, howner⟩
  · exact Or.inl howner
  · exact howner.symm

/-- **The invariant says that the mutex excludes.** -/
theorem Inv.excludes (hinv : m.Inv v) : m.Excludes v := by
  cases hinv with
  | free howned hholders _ hothers =>
    refine ⟨by simp [hholders], fun _ => ⟨hholders, fun t p hp => ?_⟩, fun _ => howned⟩
    exact Outside.not_acquiring (m := m) (hp ▸ hothers t)
  | taken h howned hinside hothers =>
    refine ⟨fun t ht t' ht' => (hinside.eq_of_mem ht).trans (hinside.eq_of_mem ht').symm,
      fun h0 => absurd h0 howned, fun ⟨hnone, hacq⟩ => ?_⟩
    -- the thread that has the flag is acquiring it, or it is a holder
    exfalso
    have hheld : ¬m.Held h := by
      rintro ⟨n, hn, -⟩
      simp [hnone] at hn
    revert hinside
    cases hp : v h with
    | none => exact hheld
    | some p =>
      have hno := hacq h p hp
      cases p <;> simp_all [Inside, Pc.acquiring]

/-- A mutex that nobody uses yet. -/
lemma inv_init (type : MutexType) : (init type).Inv fun _ => none :=
  .free rfl rfl rfl fun _ => trivial

/-- A thread comes to a place outside. -/
lemma Inv.enter_outside (hinv : m.Inv v) (ht : v t = none) (hp : m.Outside (some p))
    (hheld : t ∈ m.holders → m.Inside t (some p)) : m.Inv (Function.update v t (some p)) := by
  cases hinv with
  | free howned hholders howner hothers =>
    refine .free howned hholders howner fun t' => ?_
    by_cases htt : t' = t
    · rw [htt, Function.update_self]
      exact hp
    · rw [Function.update_of_ne htt]
      exact hothers t'
  | taken h howned hinside hothers =>
    refine .taken h howned ?_ fun t' ht' => ?_
    · by_cases hth : h = t
      · subst hth
        rw [Function.update_self]
        rw [ht] at hinside
        obtain ⟨n, hn, -⟩ := hinside
        exact hheld (by simp [hn])
      · rw [Function.update_of_ne hth]
        exact hinside
    · by_cases htt : t' = t
      · rw [htt, Function.update_self]
        exact hp
      · rw [Function.update_of_ne htt]
        exact hothers t' ht'

/-- The idle holder of a mutex. -/
lemma Inv.held (hinv : m.Inv v) (ht : v t = none) (hmem : t ∈ m.holders) :
    m.owned ≠ 0 ∧ m.Held t ∧ ∀ t', t' ≠ t → m.Outside (v t') := by
  cases hinv with
  | free _ hholders _ _ => simp [hholders] at hmem
  | taken h howned hinside hothers =>
    obtain rfl := hinside.eq_of_mem hmem
    rw [ht] at hinside
    exact ⟨howned, hinside, hothers⟩

/-- **A thread calls `pthread_mutex_lock` or `pthread_mutex_trylock`**; it does not relock a normal
mutex with the first. -/
theorem Inv.enterLock (hinv : m.Inv v) (ht : v t = none) {tries : Bool}
    (hrelock : m.type = .normal → tries = false → t ∉ m.holders) :
    m.Inv (Function.update v t (some (m.enterLock tries))) := by
  cases htype : m.type with
  | recursive =>
    rw [Mutex.enterLock, if_pos htype]
    exact hinv.enter_outside ht htype fun hmem => ⟨(hinv.held ht hmem).2.1, htype⟩
  | normal =>
    rw [Mutex.enterLock, if_neg (by simp [htype])]
    refine hinv.enter_outside ht trivial fun hmem => ⟨(hinv.held ht hmem).2.1, ?_⟩
    by_contra htries
    exact hrelock htype (by simpa using htries) hmem

/-- **A holder calls `pthread_mutex_unlock`.** -/
theorem Inv.enterUnlock (hinv : m.Inv v) (ht : v t = none) (hmem : t ∈ m.holders) :
    m.Inv (Function.update v t (some m.enterUnlock)) := by
  obtain ⟨howned, hheld, hothers⟩ := hinv.held ht hmem
  refine .taken t howned ?_ fun t' ht' => ?_
  · rw [Function.update_self]
    cases htype : m.type with
    | recursive =>
      rw [Mutex.enterUnlock, if_pos htype]
      exact ⟨hheld, htype⟩
    | normal =>
      rw [Mutex.enterUnlock, if_neg (by simp [htype])]
      obtain ⟨n, hn, howner, -, hone⟩ := hheld
      obtain rfl := hone htype
      exact ⟨hn, howner⟩
  · rw [Function.update_of_ne ht']
    exact hothers t' ht'

/-- An access never changes the type. -/
lemma access_type : (m.access t p).1.type = m.type := by
  cases p <;> simp only [Mutex.access]
  split <;> rfl

/-- An access of a thread that has nothing, while another has the flag. -/
lemma access_outside (howned : m.owned ≠ 0) (ho : m.Outside (some p)) (howner : m.owner ≠ some t) :
    (m.access t p).1.owned ≠ 0 ∧ (∀ h o, m.Inside h o → (m.access t p).1.Inside h o) ∧
      m.Outside (m.access t p).2.place := by
  cases p with
  | readOwner tries =>
    simp only [Mutex.access, if_neg howner]
    exact ⟨howned, fun _ _ hin => hin, trivial⟩
  | exchange tries =>
    simp only [Mutex.access, if_neg howned]
    refine ⟨Nat.one_ne_zero, fun h o hin => ?_, ?_⟩
    · unfold Inside Held at hin ⊢
      exact hin
    · cases tries <;> trivial
  | _ => exact ho.elim

/-- An access of the thread that has the flag: it keeps it, or it gives it up with the last
store. -/
lemma access_inside (howned : m.owned ≠ 0) (hin : m.Inside t (some p))
    (hbound : (m.access t p).1.holders.length < 2 ^ 31) :
    ((m.access t p).1.owned ≠ 0 ∧ (m.access t p).1.Inside t (m.access t p).2.place) ∨
      ((m.access t p).1.owned = 0 ∧ (m.access t p).1.holders = [] ∧
        (m.access t p).1.owner = none ∧ (m.access t p).2.place = none) := by
  cases p with
  | readOwner tries =>
    obtain ⟨hheld, htype⟩ := hin
    obtain ⟨n, -, howner, -⟩ := id hheld
    refine Or.inl ⟨howned, ?_⟩
    simp only [Mutex.access, if_pos howner]
    exact ⟨hheld, htype⟩
  | countUp => exact Or.inl ⟨howned, hin.1, hin.2, rfl⟩
  | countUpStore c =>
    obtain ⟨⟨n, hn, howner, hcount, hone⟩, htype, rfl⟩ := hin
    refine Or.inl ⟨howned, n + 1, ?_, howner, fun _ => ?_, fun hnormal => ?_⟩
    · simp [Mutex.access, hn, List.replicate_succ]
    · simp only [Mutex.access, hn, List.length_cons, List.length_replicate] at hbound
      simp only [Mutex.access, hcount htype]
      rw [toInt_of_lt (by omega) (by omega)]
      omega
    · simp [Mutex.access, htype] at hnormal
  | exchange tries =>
    obtain ⟨hheld, rfl⟩ := hin
    refine Or.inl ⟨Nat.one_ne_zero, ?_⟩
    simp only [Mutex.access, if_neg howned]
    unfold Held at hheld
    exact hheld
  | setOwner => exact Or.inl ⟨howned, hin.1, rfl⟩
  | setCount =>
    refine Or.inl ⟨howned, 0, ?_, hin.2, fun _ => by simp [Mutex.access], fun _ => rfl⟩
    simp [Mutex.access, hin.1]
  | countDown => exact Or.inl ⟨howned, hin.1, hin.2, rfl⟩
  | countDownStore c =>
    obtain ⟨⟨n, hn, howner, hcount, hone⟩, htype, rfl⟩ := hin
    have hlen : (n : ℤ) < 2 ^ 31 := by
      have hle : n ≤ (m.access t (.countDownStore m.count)).1.holders.length := by
        simp only [Mutex.access]
        split <;> simp [hn]
      omega
    have hleft : toInt (m.count - 1) = n := by
      rw [hcount htype, toInt_of_lt (by omega) (by omega)]
      omega
    simp only [Mutex.access, hleft]
    cases n with
    | zero =>
      rw [if_neg (by simp)]
      exact Or.inl ⟨howned, hn, howner⟩
    | succ n =>
      rw [if_pos (by omega)]
      refine Or.inl ⟨howned, n, ?_, howner, fun _ => ?_, fun hnormal => ?_⟩
      · simp [hn, List.replicate_succ]
      · simp
      · exact absurd (htype.symm.trans hnormal) (by decide)
  | clearOwner => exact Or.inl ⟨howned, hin.1, rfl⟩
  | release =>
    refine Or.inr ⟨rfl, ?_, hin.2, rfl⟩
    simp [Mutex.access, hin.1]

/-- **Every access keeps the invariant**, as long as no thread has locked a mutex `2 ^ 31` times.

**Proof sketch.** While the mutex is free, the access is a look at the owner, which is nobody, or
the exchange that takes the flag. While a thread has the flag, the access is its own
(`access_inside`), or it is one of a thread that has nothing and gets nothing
(`access_outside`). -/
theorem Inv.access (hinv : m.Inv v) (hp : v t = some p)
    (hbound : (m.access t p).1.holders.length < 2 ^ 31) :
    (m.access t p).1.Inv (Function.update v t (m.access t p).2.place) := by
  have hothers : ∀ t', t' ≠ t → m.Outside (v t') →
      (m.access t p).1.Outside (Function.update v t (m.access t p).2.place t') := by
    intro t' ht' ho
    rw [Function.update_of_ne ht']
    exact ho.congr access_type
  cases hinv with
  | free howned hholders howner hout =>
    have ho := hout t
    rw [hp] at ho
    cases p with
    | readOwner tries =>
      refine .free howned hholders howner fun t' => ?_
      by_cases htt : t' = t
      · rw [htt, Function.update_self]
        simp only [Mutex.access, howner, reduceCtorEq, if_false]
        trivial
      · exact hothers t' htt (hout t')
    | exchange tries =>
      refine .taken t Nat.one_ne_zero ?_ fun t' ht' => hothers t' ht' (hout t')
      rw [Function.update_self]
      simp only [Mutex.access, if_pos howned]
      exact ⟨hholders, howner⟩
    | _ => exact ho.elim
  | taken h howned hinside hout =>
    by_cases hth : t = h
    · subst hth
      rw [hp] at hinside
      rcases access_inside howned hinside hbound with ⟨howned', hin'⟩ | ⟨hfree, hnone, hnull, hdone⟩
      · refine .taken t howned' ?_ fun t' ht' => hothers t' ht' (hout t' ht')
        rw [Function.update_self]
        exact hin'
      · refine .free hfree hnone hnull fun t' => ?_
        by_cases htt : t' = t
        · rw [htt, Function.update_self, hdone]
          trivial
        · exact hothers t' htt (hout t' htt)
    · have ho := hout t hth
      rw [hp] at ho
      have howner : m.owner ≠ some t := by
        rcases hinside.owner with howner | howner
        · rw [howner]
          exact fun heq => hth (Option.some_inj.mp heq).symm
        · rw [howner]
          exact fun heq => by cases heq
      obtain ⟨howned', hkeep, hout'⟩ := access_outside howned ho howner
      refine .taken h howned' ?_ fun t' ht' => ?_
      · rw [Function.update_of_ne (Ne.symm hth)]
        exact hkeep h _ hinside
      · by_cases htt : t' = t
        · rw [htt, Function.update_self]
          exact hout'.congr access_type
        · exact hothers t' htt (hout t' ht')

end

end Mutex

/-! ## Read-write locks -/

/-- `pthread_rwlock_t`. -/
structure Rwlock where
  /-- `state`. -/
  state : ℤ
  /-- The threads that have it for reading, with one entry for each time. -/
  readers : List ℕ
  /-- The threads that have it for writing. -/
  writers : List ℕ

namespace Rwlock

/-- A lock that was initialised. -/
def init : Rwlock := ⟨0, [], []⟩

/-- Where a thread is in one of the functions. -/
inductive Pc where
  /-- In `pthread_rwlock_rdlock`, or `pthread_rwlock_tryrdlock` if `tries`, before the load. -/
  | rdLoad (tries : Bool)
  /-- Before the exchange that expects `s`. -/
  | rdExchange (tries : Bool) (s : ℤ)
  /-- In `pthread_rwlock_wrlock`, or `pthread_rwlock_trywrlock` if `tries`. -/
  | wrExchange (tries : Bool)
  /-- In `pthread_rwlock_unlock`, before the load. -/
  | unlockLoad
  /-- Before the store of the writer. -/
  | unlockStore
  /-- Before the subtraction of a reader. -/
  | unlockSub
  deriving DecidableEq

/-- One access of the thread `self`. -/
def access (self : ℕ) (l : Rwlock) : Pc → Rwlock × Next Pc
  | .rdLoad tries =>
    (l,
      if l.state < 0 then (if tries then .returned ebusy else .at (.rdLoad tries))
      else .at (.rdExchange tries l.state))
  | .rdExchange tries s =>
    if l.state = s then
      ({ l with state := toInt (s + 1), readers := self :: l.readers }, .returned 0)
    else (l, if tries then .returned ebusy else .at (.rdLoad tries))
  | .wrExchange tries =>
    if l.state = 0 then ({ l with state := -1, writers := self :: l.writers }, .returned 0)
    else (l, if tries then .returned ebusy else .at (.wrExchange tries))
  | .unlockLoad => (l, .at (if l.state < 0 then .unlockStore else .unlockSub))
  | .unlockStore => ({ l with state := 0, writers := l.writers.erase self }, .returned 0)
  | .unlockSub =>
    ({ l with state := toInt (l.state - 1), readers := l.readers.erase self }, .returned 0)

/-- **The lock excludes**: one writer has it and the state is `-1`, or the state is the number of
readers. -/
def Excludes (l : Rwlock) : Prop :=
  (l.state = -1 ∧ (∃ w, l.writers = [w]) ∧ l.readers = []) ∨
    (l.writers = [] ∧ l.state = l.readers.length)

/-- What a thread at a place knows of the lock. -/
def Knows (l : Rwlock) (t : ℕ) : Pc → Prop
  | .rdLoad _ | .wrExchange _ => True
  | .rdExchange _ s => 0 ≤ s
  | .unlockLoad => t ∈ l.readers ∨ t ∈ l.writers
  | .unlockStore => t ∈ l.writers
  | .unlockSub => t ∈ l.readers

/-- What holds of a lock between any two accesses. -/
structure Inv (l : Rwlock) (v : ℕ → Option Pc) : Prop where
  /-- The state says who has the lock. -/
  excludes : l.Excludes
  /-- What the threads rely on is so. -/
  knows : ∀ t p, v t = some p → l.Knows t p

section

variable {l l' : Rwlock} {v : ℕ → Option Pc} {t t' : ℕ} {p : Pc}

/-- A lock that nobody uses yet. -/
lemma inv_init : init.Inv fun _ => none :=
  ⟨Or.inr ⟨rfl, rfl⟩, fun _ _ hp => by cases hp⟩

/-- **A thread calls one of the functions**, to unlock only if it has the lock. -/
theorem Inv.enter (hinv : l.Inv v) (hp : l.Knows t p) :
    l.Inv (Function.update v t (some p)) := by
  refine ⟨hinv.excludes, fun t' p' hp' => ?_⟩
  by_cases htt : t' = t
  · rw [htt, Function.update_self] at hp'
    obtain rfl := Option.some_inj.mp hp'
    exact htt ▸ hp
  · rw [Function.update_of_ne htt] at hp'
    exact hinv.knows t' p' hp'

/-- What the other threads know stays so, when only a thread's own entries go. -/
lemma Knows.mono (hk : l.Knows t' p) (hreaders : t' ∈ l.readers → t' ∈ l'.readers)
    (hwriters : t' ∈ l.writers → t' ∈ l'.writers) : l'.Knows t' p := by
  cases p with
  | rdLoad _ => trivial
  | wrExchange _ => trivial
  | rdExchange _ s => exact hk
  | unlockLoad => exact hk.imp hreaders hwriters
  | unlockStore => exact hwriters hk
  | unlockSub => exact hreaders hk

/-- A writer of a lock that excludes is alone. -/
lemma Excludes.of_writer (hl : l.Excludes) (ht : t ∈ l.writers) :
    l.state = -1 ∧ l.writers = [t] ∧ l.readers = [] := by
  rcases hl with ⟨hstate, ⟨w, hw⟩, hnone⟩ | ⟨hnone, -⟩
  · obtain rfl : t = w := by simpa [hw] using ht
    exact ⟨hstate, hw, hnone⟩
  · simp [hnone] at ht

/-- A reader of a lock that excludes is counted. -/
lemma Excludes.of_reader (hl : l.Excludes) (ht : t ∈ l.readers) :
    l.writers = [] ∧ l.state = l.readers.length := by
  rcases hl with ⟨-, -, hnone⟩ | hcount
  · simp [hnone] at ht
  · exact hcount

/-- An access leaves a lock that excludes, and a thread that knows where it is. -/
lemma access_self (hl : l.Excludes) (hk : l.Knows t p)
    (hbound : (l.access t p).1.readers.length < 2 ^ 31) :
    (l.access t p).1.Excludes ∧
      ∀ p', (l.access t p).2.place = some p' → (l.access t p).1.Knows t p' := by
  cases p with
  | rdLoad tries =>
    refine ⟨hl, fun p' hp' => ?_⟩
    simp only [Rwlock.access] at hp' ⊢
    split_ifs at hp' with hneg htries
    · cases hp'
    · cases hp'
      trivial
    · cases hp'
      exact Int.not_lt.mp hneg
  | rdExchange tries s =>
    simp only [Rwlock.access] at hbound ⊢
    split_ifs at hbound ⊢ with hsame htries
    · refine ⟨Or.inr ?_, fun p' hp' => by cases hp'⟩
      have hnonneg : 0 ≤ s := hk
      rcases hl with ⟨hstate, -, -⟩ | ⟨hnone, hcount⟩
      · omega
      · refine ⟨hnone, ?_⟩
        simp only [List.length_cons] at hbound ⊢
        rw [toInt_of_lt (by omega) (by omega)]
        omega
    · exact ⟨hl, fun p' hp' => by cases hp'⟩
    · refine ⟨hl, fun p' hp' => ?_⟩
      cases hp'
      trivial
  | wrExchange tries =>
    simp only [Rwlock.access]
    split_ifs with hzero htries
    · rcases hl with ⟨hstate, -, -⟩ | ⟨hnone, hcount⟩
      · omega
      · have hnil : l.readers = [] := List.length_eq_zero_iff.mp (by omega)
        exact ⟨Or.inl ⟨rfl, ⟨t, by simp [hnone]⟩, hnil⟩, fun p' hp' => by cases hp'⟩
    · exact ⟨hl, fun p' hp' => by cases hp'⟩
    · refine ⟨hl, fun p' hp' => ?_⟩
      cases hp'
      trivial
  | unlockLoad =>
    refine ⟨hl, fun p' hp' => ?_⟩
    simp only [Rwlock.access, Next.place, Option.some_inj] at hp' ⊢
    subst hp'
    rcases hk with hr | hw
    · have hcount := (hl.of_reader hr).2
      rw [if_neg (by omega)]
      exact hr
    · have hstate := (hl.of_writer hw).1
      rw [if_pos (by omega)]
      exact hw
  | unlockStore =>
    obtain ⟨-, hone, hnone⟩ := hl.of_writer hk
    refine ⟨Or.inr ⟨?_, ?_⟩, fun p' hp' => by cases hp'⟩
    · simp [Rwlock.access, hone]
    · simp [Rwlock.access, hnone]
  | unlockSub =>
    obtain ⟨hnone, hcount⟩ := hl.of_reader hk
    have hlen : (l.readers.erase t).length = l.readers.length - 1 := List.length_erase_of_mem hk
    have hpos : 0 < l.readers.length := List.length_pos_of_mem hk
    refine ⟨Or.inr ⟨hnone, ?_⟩, fun p' hp' => by cases hp'⟩
    simp only [Rwlock.access] at hbound ⊢
    rw [toInt_of_lt (by omega) (by omega)]
    omega

/-- An access removes at most the thread's own entries. -/
lemma access_others (ht : t' ≠ t) :
    (t' ∈ l.readers → t' ∈ (l.access t p).1.readers) ∧
      (t' ∈ l.writers → t' ∈ (l.access t p).1.writers) := by
  cases p with
  | rdLoad tries => exact ⟨id, id⟩
  | rdExchange tries s =>
    simp only [Rwlock.access]
    split_ifs
    · exact ⟨List.mem_cons_of_mem t, id⟩
    all_goals exact ⟨id, id⟩
  | wrExchange tries =>
    simp only [Rwlock.access]
    split_ifs
    · exact ⟨id, List.mem_cons_of_mem t⟩
    all_goals exact ⟨id, id⟩
  | unlockLoad => exact ⟨id, id⟩
  | unlockStore => exact ⟨id, (List.mem_erase_of_ne ht).mpr⟩
  | unlockSub => exact ⟨(List.mem_erase_of_ne ht).mpr, id⟩

/-- **Every access keeps the invariant**, as long as there are no `2 ^ 31` readers. -/
theorem Inv.access (hinv : l.Inv v) (hp : v t = some p)
    (hbound : (l.access t p).1.readers.length < 2 ^ 31) :
    (l.access t p).1.Inv (Function.update v t (l.access t p).2.place) := by
  obtain ⟨hl, hself⟩ := access_self hinv.excludes (hinv.knows t p hp) hbound
  refine ⟨hl, fun t' p' hp' => ?_⟩
  by_cases htt : t' = t
  · subst htt
    rw [Function.update_self] at hp'
    exact hself p' hp'
  · rw [Function.update_of_ne htt] at hp'
    obtain ⟨hreaders, hwriters⟩ := access_others (l := l) (p := p) htt
    exact (hinv.knows t' p' hp').mono hreaders hwriters

end

end Rwlock

/-! ## Once flags -/

/-- `pthread_once_t`. -/
structure Once where
  /-- The flag. -/
  flag : ℤ
  /-- How often a routine was called through the flag. -/
  started : ℕ
  /-- How often such a routine has returned. -/
  finished : ℕ
  /-- How often `pthread_once` has returned. -/
  returned : ℕ

namespace Once

/-- `PTHREAD_ONCE_INIT`. -/
def init : Once := ⟨0, 0, 0, 0⟩

/-- Where a thread is in `pthread_once`, outside the routine. -/
inductive Pc where
  /-- Before the exchange. -/
  | exchange
  /-- In the loop, before the load. -/
  | spin
  /-- Behind the routine, before the store. -/
  | store
  deriving DecidableEq

/-- One access. -/
def access (o : Once) : Pc → Once × Next Pc
  | .exchange =>
    if o.flag = 0 then ({ o with flag := 1, started := o.started + 1 }, .calls)
    else (o, .at .spin)
  | .spin =>
    if o.flag = 2 then ({ o with returned := o.returned + 1 }, .returned 0) else (o, .at .spin)
  | .store => ({ o with flag := 2, returned := o.returned + 1 }, .returned 0)

/-- The routine returns to `pthread_once`. -/
def finish (o : Once) : Once := { o with finished := o.finished + 1 }

/-- **The routine runs once**: never twice, and it has run and returned when `pthread_once`
returns. -/
def Excludes (o : Once) : Prop :=
  o.started ≤ 1 ∧ o.finished ≤ o.started ∧ (0 < o.returned → o.started = 1 ∧ o.finished = 1)

/-- A thread that only looks whether there is something to do. -/
def Looks : Option Pc → Prop
  | none | some .exchange | some .spin => True
  | some .store => False

/-- What holds of a flag between any two accesses, where the thread `t` is in `calls t` calls of a
routine through the flag. -/
inductive Inv (o : Once) (v : ℕ → Option Pc) (calls : ℕ → ℕ) : Prop where
  /-- Nobody was here. -/
  | untouched (hflag : o.flag = 0) (hcounts : o.started = 0 ∧ o.finished = 0 ∧ o.returned = 0)
    (hcalls : ∀ t, calls t = 0) (hlook : ∀ t, Looks (v t))
  /-- The thread `h` is in the routine. -/
  | running (h : ℕ) (hflag : o.flag = 1)
    (hcounts : o.started = 1 ∧ o.finished = 0 ∧ o.returned = 0) (hone : calls h = 1)
    (hcalls : ∀ t, t ≠ h → calls t = 0) (hlook : ∀ t, Looks (v t))
  /-- The thread `h` has come out of it. -/
  | storing (h : ℕ) (hflag : o.flag = 1)
    (hcounts : o.started = 1 ∧ o.finished = 1 ∧ o.returned = 0) (hstore : v h = some .store)
    (hcalls : ∀ t, calls t = 0) (hothers : ∀ t, t ≠ h → Looks (v t))
  /-- The routine has run. -/
  | done (hflag : o.flag = 2) (hcounts : o.started = 1 ∧ o.finished = 1)
    (hcalls : ∀ t, calls t = 0) (hlook : ∀ t, Looks (v t))

section

variable {o : Once} {v : ℕ → Option Pc} {calls : ℕ → ℕ} {t : ℕ} {p : Pc}

/-- **The invariant says that the routine runs once.** -/
theorem Inv.excludes (hinv : o.Inv v calls) : o.Excludes := by
  cases hinv with
  | untouched _ hcounts _ _ => exact ⟨by omega, by omega, by omega⟩
  | running _ _ hcounts _ _ _ => exact ⟨by omega, by omega, by omega⟩
  | storing _ _ hcounts _ _ _ => exact ⟨by omega, by omega, by omega⟩
  | done _ hcounts _ _ => exact ⟨by omega, by omega, fun _ => hcounts⟩

/-- A flag that nobody uses yet. -/
lemma inv_init : init.Inv (fun _ => none) fun _ => 0 :=
  .untouched rfl ⟨rfl, rfl, rfl⟩ (fun _ => rfl) fun _ => trivial

/-- A thread that comes to look, or goes. -/
lemma looks_update {q : Option Pc} (hq : Looks q) {t' : ℕ} (ht' : Looks (v t')) : Looks (Function.update v t q t') := by
  by_cases htt : t' = t
  · rw [htt, Function.update_self]
    exact hq
  · rw [Function.update_of_ne htt]
    exact ht'

/-- A thread that looks may look from another place, or go. -/
lemma Inv.looks (hinv : o.Inv v calls) (ht : Looks (v t)) {q : Option Pc} (hq : Looks q) :
    o.Inv (Function.update v t q) calls := by
  cases hinv with
  | untouched hflag hcounts hcalls hlook =>
    exact .untouched hflag hcounts hcalls fun t' => looks_update hq (hlook t')
  | running h hflag hcounts hone hcalls hlook =>
    exact .running h hflag hcounts hone hcalls fun t' => looks_update hq (hlook t')
  | storing h hflag hcounts hstore hcalls hlook =>
    have hth : h ≠ t := by
      rintro rfl
      rw [hstore] at ht
      exact ht
    refine .storing h hflag hcounts ?_ hcalls fun t' ht' => looks_update hq (hlook t' ht')
    rw [Function.update_of_ne hth]
    exact hstore
  | done hflag hcounts hcalls hlook =>
    exact .done hflag hcounts hcalls fun t' => looks_update hq (hlook t')

/-- **Every access keeps the invariant**; the exchange that succeeds calls the routine. -/
theorem Inv.access (hinv : o.Inv v calls) (hp : v t = some p) :
    (o.access p).1.Inv (Function.update v t (o.access p).2.place)
      (Function.update calls t (calls t + if (o.access p).2 = .calls then 1 else 0)) := by
  have hsame : Function.update calls t (calls t + 0) = calls := Function.update_eq_self t calls
  cases p with
  | exchange =>
    have hlook : Looks (v t) := by rw [hp]; trivial
    by_cases hflag : o.flag = 0
    · simp only [Once.access, if_pos hflag, if_true]
      cases hinv with
      | untouched _ hcounts hcalls hlooks =>
        refine .running t rfl ⟨by simp [hcounts.1], hcounts.2⟩ ?_ (fun t' ht' => ?_) fun t' =>
          looks_update (q := none) trivial (hlooks t')
        · rw [Function.update_self, hcalls t]
        · rw [Function.update_of_ne ht', hcalls t']
      | running _ hone _ _ _ _ => omega
      | storing _ hone _ _ _ _ => omega
      | done htwo _ _ _ => omega
    · simp only [Once.access, if_neg hflag, reduceCtorEq, if_false]
      rw [hsame]
      exact hinv.looks hlook trivial
  | spin =>
    have hlook : Looks (v t) := by rw [hp]; trivial
    by_cases hflag : o.flag = 2
    · simp only [Once.access, if_pos hflag, reduceCtorEq, if_false]
      rw [hsame]
      cases hinv with
      | untouched hzero _ _ _ => omega
      | running _ hone _ _ _ _ => omega
      | storing _ hone _ _ _ _ => omega
      | done _ hcounts hcalls hlooks =>
        exact .done hflag hcounts hcalls fun t' =>
          looks_update (q := none) trivial (hlooks t')
    · simp only [Once.access, if_neg hflag, reduceCtorEq, if_false]
      rw [hsame]
      exact hinv.looks hlook trivial
  | store =>
    have hno : ¬Looks (v t) := by
      rw [hp]
      exact id
    simp only [Once.access, reduceCtorEq, if_false]
    rw [hsame]
    cases hinv with
    | untouched _ _ _ hlooks => exact absurd (hlooks t) hno
    | running _ _ _ _ _ hlooks => exact absurd (hlooks t) hno
    | done _ _ _ hlooks => exact absurd (hlooks t) hno
    | storing h _ hcounts hstore hcalls hlooks =>
      obtain rfl : t = h := by
        by_contra hth
        exact hno (hlooks t hth)
      refine .done rfl ⟨hcounts.1, hcounts.2.1⟩ hcalls fun t' => ?_
      by_cases htt : t' = t
      · rw [htt, Function.update_self]
        trivial
      · rw [Function.update_of_ne htt]
        exact hlooks t' htt

/-- **The routine returns**: the thread goes on to store. -/
theorem Inv.finish (hinv : o.Inv v calls) (hcall : 0 < calls t) :
    o.finish.Inv (Function.update v t (some .store)) (Function.update calls t (calls t - 1)) := by
  cases hinv with
  | untouched _ _ hcalls _ => exact absurd (hcalls t) (by omega)
  | storing _ _ _ _ hcalls _ => exact absurd (hcalls t) (by omega)
  | done _ _ hcalls _ => exact absurd (hcalls t) (by omega)
  | running h hflag hcounts hone hcalls hlooks =>
    obtain rfl : t = h := by
      by_contra hth
      exact absurd (hcalls t hth) (by omega)
    refine .storing t hflag ⟨hcounts.1, by simp [Once.finish, hcounts.2.1], hcounts.2.2⟩
      (Function.update_self _ _ _) (fun t' => ?_) fun t' ht' => ?_
    · by_cases htt : t' = t
      · rw [htt, Function.update_self]
        omega
      · rw [Function.update_of_ne htt]
        exact hcalls t' htt
    · rw [Function.update_of_ne ht']
      exact hlooks t'

end

end Once

end Asteros.Libc.Locks
