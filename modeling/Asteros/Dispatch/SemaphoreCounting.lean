import Asteros.Dispatch.Semaphore
import Asteros.Lib.Tally
import Mathlib.Data.List.Count

set_option autoImplicit false

/-!
# What a semaphore counts

One thread has the mutex at a time, and only it changes the count; what is in the count and what
the waits have taken is what the semaphore was created with and what the signals have added. A
thread that polls has read the generation while the count was not positive. When the count becomes
positive, the signal adds 1 to the generation before it gives the mutex back; so while the mutex is
free and the count positive, no thread polls for the generation that is the current one.

The generation is an `unsigned int`. A thread that polls does not see it change when it has gone
all the way round between two of its looks, after 4294967296 signals: it then polls on, and no
thread is left to wake it. The count is a `long`, which the signal at its maximum overflows.

## Main definitions

* `Fits` — the condition: no signal overflows the count, or brings the generation back to one that a
  thread polls for.
* `Counts` — what the clients of a semaphore rely on.

## Main results

* `Invariant.step` — every step that fits keeps the account.
* `counts` — in runs whose steps fit, a semaphore counts.
* `not_counts` — a generation that has gone round loses a wakeup.
-/

namespace Asteros.Dispatch.Semaphore

open Tally

/-! ## What the clients rely on -/

/-- Whether a thread polls for a generation. -/
def Pc.polls (gen : ℕ) : Pc → Bool
  | .polling _ gen0 => gen0 == gen
  | _ => false

/-- The next access of a thread overflows nothing: the count stays in a `long`, and the generation
does not come back to one that a thread polls for. -/
def State.FitsAt (s : State) : Pc → Prop
  | .increment => s.sem.value < 2 ^ 63 - 1
  | .notify value => 0 < value → ∀ pc ∈ s.threads, pc.polls (nextGen s.sem.gen) = false
  | _ => True

instance (s : State) (pc : Pc) : Decidable (s.FitsAt pc) := by
  cases pc <;> unfold State.FitsAt <;> infer_instance

/-- A step overflows nothing. -/
def Fits (s : State) : Action → Prop
  | .run t => ∀ pc ∈ s.threads[t]?, s.FitsAt pc
  | _ => True

instance (s : State) (a : Action) : Decidable (Fits s a) := by
  cases a <;> unfold Fits <;> infer_instance

/-- What the clients of a semaphore that was created with `value` rely on. -/
structure Counts (value : ℤ) (s : State) : Prop where
  /-- The count is not negative. -/
  nonneg : 0 ≤ s.sem.value
  /-- No more waits return 0 than there were units. -/
  granted : (s.returns.countP (·.result = 0) : ℤ) ≤ value + s.signals
  /-- A wait that returns another value took no unit. -/
  refused : ∀ r ∈ s.returns, r.result ≠ 0 → r.took = 0
  /-- No wakeup is lost. -/
  awake : s.sem.owned = false → 0 < s.sem.value → ∀ pc ∈ s.threads, pc.polls s.sem.gen = false

/-! ## One access -/

/-- Whether a thread has the mutex. -/
def Pc.holds : Pc → ℕ
  | .increment | .notify _ | .leaveSignal _ | .test _ | .sample _ | .release _ _ | .recheck _ _
  | .take | .leaveWait _ => 1
  | .client | .enterSignal | .enterWait _ | .polling _ _ | .relock _ _ => 0

/-- What a thread that has the mutex knows of the count. -/
def Pc.Knows (value : ℤ) : Pc → Prop
  | .notify v => v = value
  | .sample _ | .release _ _ => value ≤ 0
  | .take => 0 < value
  | _ => True

/-- How many units a thread has taken in the wait it is in. -/
def Pc.gained : Pc → ℕ
  | .leaveWait result => if result = 0 then 1 else 0
  | _ => 0

/-- What has been counted of the units that a thread takes in the wait it is in. -/
def Pc.Took (n : ℕ) : Pc → Prop
  | .client | .enterSignal | .increment | .notify _ | .leaveSignal _ => True
  | pc => n = pc.gained

section

variable {sem sem' : Semaphore} {pc pc' : Pc}

/-- A thread without the mutex knows nothing of the count. -/
lemma Pc.knows_of_holds (h : pc.holds = 0) (value : ℤ) : pc.Knows value := by
  cases pc <;> trivial

/-- The first look leaves the mutex where it is. -/
lemma holds_afterTest (value : ℤ) (timeout : ℕ) : (afterTest value timeout).holds = 1 := by
  unfold afterTest
  split_ifs <;> rfl

/-- A further look leaves the mutex where it is. -/
lemma holds_afterRecheck (value : ℤ) (timed timedOut : Bool) :
    (afterRecheck value timed timedOut).holds = 1 := by
  unfold afterRecheck
  split_ifs <;> rfl

/-- The first look tells what the thread then knows. -/
lemma knows_afterTest (value : ℤ) (timeout : ℕ) : (afterTest value timeout).Knows value := by
  unfold afterTest
  split_ifs <;> simp only [Pc.Knows] <;> omega

/-- A further look tells what the thread then knows. -/
lemma knows_afterRecheck (value : ℤ) (timed timedOut : Bool) :
    (afterRecheck value timed timedOut).Knows value := by
  unfold afterRecheck
  split_ifs <;> simp only [Pc.Knows] <;> omega

/-- The first look takes nothing. -/
lemma gained_afterTest (value : ℤ) (timeout : ℕ) : (afterTest value timeout).gained = 0 := by
  unfold afterTest
  split_ifs <;> rfl

/-- A further look takes nothing. -/
lemma gained_afterRecheck (value : ℤ) (timed timedOut : Bool) :
    (afterRecheck value timed timedOut).gained = 0 := by
  unfold afterRecheck
  split_ifs <;> rfl

/-- The mutex is taken where it is free. -/
lemma lock_eq_some (h : sem.lock pc = some (sem', pc')) :
    sem.owned = false ∧ sem' = { sem with owned := true } ∧ pc' = pc := by
  unfold lock at h
  split at h
  · cases h
  · next howned =>
    cases h
    exact ⟨by simpa using howned, rfl, rfl⟩

/-- 1 where a thread has the mutex. -/
def taken (sem : Semaphore) : ℕ := if sem.owned then 1 else 0

/-- An access takes the mutex and gives it back. -/
lemma access_holds (h : sem.access pc = some (sem', pc')) (howned : pc.holds ≤ sem.taken) :
    pc'.holds + sem.taken = pc.holds + sem'.taken := by
  cases pc with
  | client => cases h
  | enterSignal | enterWait _ | relock _ _ =>
    obtain ⟨hfree, rfl, rfl⟩ := lock_eq_some h
    simp [Pc.holds, taken, hfree]
  | increment | take => cases h; rfl
  | sample timed => cases h; rfl
  | notify value =>
    cases h
    by_cases hvalue : 0 < value <;> simp [hvalue, Pc.holds, taken]
  | test timeout =>
    cases h
    rw [holds_afterTest]
    rfl
  | recheck timed timedOut =>
    cases h
    rw [holds_afterRecheck]
    rfl
  | leaveSignal _ | release _ _ | leaveWait _ =>
    cases h
    simp only [Pc.holds, taken, unlock] at howned ⊢
    split at howned <;> simp_all
  | polling timed gen0 =>
    simp only [access] at h
    split at h <;> cases h
    rfl

/-- A `long` holds what fits. -/
lemma toLong_of_lt {n : ℤ} (hlow : -(2 ^ 63) ≤ n) (hhigh : n < 2 ^ 63) : toLong n = n :=
  Int.bmod_eq_of_le (by omega) (by omega)

/-- Only the two accesses that change the count change it. -/
lemma access_value (h : sem.access pc = some (sem', pc')) (hlow : 0 ≤ sem.value)
    (hhigh : sem.value < 2 ^ 63) (hfits : pc = .increment → sem.value < 2 ^ 63 - 1) :
    sem'.value + (if pc = .take then 1 else 0) =
      sem.value + (if pc = .increment then 1 else 0) := by
  cases pc with
  | client => cases h
  | enterSignal | enterWait _ | relock _ _ =>
    obtain ⟨-, rfl, -⟩ := lock_eq_some h
    simp
  | increment =>
    cases h
    have hmax := hfits rfl
    have hlong : toLong (sem.value + 1) = sem.value + 1 := toLong_of_lt (by omega) (by omega)
    simp [hlong]
  | take =>
    cases h
    have hlong : toLong (sem.value - 1) = sem.value - 1 := toLong_of_lt (by omega) (by omega)
    simp [hlong]
  | notify value =>
    cases h
    by_cases hvalue : 0 < value <;> simp [hvalue]
  | sample _ | test _ | recheck _ _ | leaveSignal _ | release _ _ | leaveWait _ =>
    cases h
    simp [unlock]
  | polling timed gen0 =>
    simp only [access] at h
    split at h <;> cases h
    simp

/-- What a thread knows of the count behind its access. -/
lemma access_knows (h : sem.access pc = some (sem', pc')) (hknows : pc.Knows sem.value) :
    pc'.Knows sem'.value := by
  cases pc with
  | client => cases h
  | enterSignal | enterWait _ | relock _ _ =>
    obtain ⟨-, -, rfl⟩ := lock_eq_some h
    trivial
  | increment => cases h; rfl
  | take | notify _ | leaveSignal _ | release _ _ | leaveWait _ => cases h; trivial
  | sample _ => cases h; exact hknows
  | test timeout => cases h; exact knows_afterTest _ _
  | recheck timed timedOut => cases h; exact knows_afterRecheck _ _ _
  | polling timed gen0 =>
    simp only [access] at h
    split at h <;> cases h
    trivial

/-- A thread has taken a unit behind the access that takes one. -/
lemma access_gained (h : sem.access pc = some (sem', pc')) :
    pc'.gained = if pc = .take then 1 else 0 := by
  cases pc with
  | client => cases h
  | enterSignal | enterWait _ | relock _ _ =>
    obtain ⟨-, -, rfl⟩ := lock_eq_some h
    rfl
  | increment | take | notify _ | leaveSignal _ | sample _ | release _ _ | leaveWait _ =>
    cases h
    rfl
  | test timeout => cases h; exact gained_afterTest _ _
  | recheck timed timedOut => cases h; exact gained_afterRecheck _ _ _
  | polling timed gen0 =>
    simp only [access] at h
    split at h <;> cases h
    rfl

/-- A place within a wait says how many units it has taken. -/
lemma Pc.took_gained (pc : Pc) : pc.Took pc.gained := by
  cases pc <;> trivial

/-- An access counts the unit it takes. -/
lemma access_took (h : sem.access pc = some (sem', pc')) {n : ℕ} (htook : pc.Took n) :
    pc'.Took (if pc = .take then n + 1 else n) := by
  cases pc with
  | client => cases h
  | enterSignal =>
    obtain ⟨-, -, rfl⟩ := lock_eq_some h
    trivial
  | increment | notify _ | leaveSignal _ | leaveWait _ => cases h; trivial
  | enterWait _ | relock _ _ =>
    obtain ⟨-, -, rfl⟩ := lock_eq_some h
    exact htook
  | sample _ | release _ _ => cases h; exact htook
  | take =>
    cases h
    exact congrArg (· + 1) htook
  | test timeout =>
    obtain rfl : n = 0 := htook
    cases h
    have hgained := gained_afterTest sem.value timeout
    simpa [hgained] using Pc.took_gained (afterTest sem.value timeout)
  | recheck timed timedOut =>
    obtain rfl : n = 0 := htook
    cases h
    have hgained := gained_afterRecheck sem.value timed timedOut
    simpa [hgained] using Pc.took_gained (afterRecheck sem.value timed timedOut)
  | polling timed gen0 =>
    simp only [access] at h
    split at h <;> cases h
    exact htook

/-- Only `pthread_cond_signal` changes the generation. -/
lemma access_gen (h : sem.access pc = some (sem', pc')) (hpc : ∀ value, pc ≠ .notify value) :
    sem'.gen = sem.gen := by
  cases pc with
  | client => cases h
  | notify value => exact absurd rfl (hpc value)
  | enterSignal | enterWait _ | relock _ _ =>
    obtain ⟨-, rfl, -⟩ := lock_eq_some h
    rfl
  | increment | take | leaveSignal _ | sample _ | release _ _ | leaveWait _ | test _
  | recheck _ _ => cases h; rfl
  | polling timed gen0 =>
    simp only [access] at h
    split at h <;> cases h
    rfl

/-- A thread that polls has just given the mutex back. -/
lemma access_polls (h : sem.access pc = some (sem', pc')) {gen : ℕ} (hpolls : pc'.polls gen) :
    ∃ timed, pc = .release timed gen := by
  cases pc with
  | client => cases h
  | enterSignal | enterWait _ | relock _ _ =>
    obtain ⟨-, -, rfl⟩ := lock_eq_some h
    cases hpolls
  | increment | take | notify _ | leaveSignal _ | sample _ | leaveWait _ =>
    cases h
    cases hpolls
  | release timed gen0 =>
    cases h
    obtain rfl : gen0 = gen := beq_iff_eq.mp hpolls
    exact ⟨timed, rfl⟩
  | test timeout =>
    cases h
    unfold afterTest at hpolls
    split_ifs at hpolls <;> cases hpolls
  | recheck timed timedOut =>
    cases h
    unfold afterRecheck at hpolls
    split_ifs at hpolls <;> cases hpolls
  | polling timed gen0 =>
    simp only [access] at h
    split at h <;> cases h
    cases hpolls

/-- Only `++sem->value` leads to `pthread_cond_signal`. -/
lemma access_eq_increment (h : sem.access .increment = some (sem', pc')) :
    ∃ value, pc' = .notify value := by
  cases h
  exact ⟨_, rfl⟩

end

/-! ## The account -/

/-- The account of the mutex, the count, the units and the wakeups. -/
structure Invariant (value : ℤ) (s : State) : Prop where
  /-- One thread has the mutex, while it is taken. -/
  mutex : tally Pc.holds s.threads = s.sem.taken
  /-- The count is not negative. -/
  low : 0 ≤ s.sem.value
  /-- The count is in a `long`. -/
  high : s.sem.value < 2 ^ 63
  /-- What the thread with the mutex knows. -/
  knows : ∀ (t : ℕ) (pc : Pc), s.threads[t]? = some pc → pc.Knows s.sem.value
  /-- The units. -/
  account : s.sem.value + s.units = value + s.signals
  /-- The units that were taken are those of the waits that return 0. -/
  granted : s.returns.countP (·.result = 0) + tally Pc.gained s.threads = s.units
  /-- The units of each wait. -/
  took : ∀ (t : ℕ) (pc : Pc), s.threads[t]? = some pc → pc.Took (s.took t)
  /-- A wait that returned another value took no unit. -/
  refused : ∀ r ∈ s.returns, r.result ≠ 0 → r.took = 0
  /-- While the count is positive no thread polls for the generation, or a thread is about to
  change it. -/
  awake : 0 < s.sem.value → (∀ pc ∈ s.threads, pc.polls s.sem.gen = false) ∨
    ∃ v, .notify v ∈ s.threads

section

variable {s s' : State} {value : ℤ} {t u : ℕ} {pc pc' q : Pc}

/-- A thread of the list in which one has moved on. -/
lemma of_getElem?_set (h : (s.threads.set t pc')[u]? = some q) :
    (u = t ∧ q = pc') ∨ (u ≠ t ∧ s.threads[u]? = some q) := by
  rw [List.getElem?_set] at h
  split at h
  · next heq =>
    split at h
    · exact .inl ⟨heq.symm, (Option.some_inj.mp h).symm⟩
    · cases h
  · next hne => exact .inr ⟨fun heq => hne heq.symm, h⟩

/-- A thread that has the mutex is the only one. -/
lemma Invariant.holds_of_ne (h : Invariant value s) (ht : s.threads[t]? = some pc)
    (hpc : pc.holds = 1) (hu : s.threads[u]? = some q) (hne : u ≠ t) : q.holds = 0 := by
  by_contra hq
  have htaken : s.sem.taken ≤ 1 := by
    rw [taken]
    split <;> omega
  exact hne (eq_of_tally_le_one (by rw [h.mutex]; exact htaken) hu ht (by omega) (by omega))

/-- A call begins, or a deadline is over: a thread without the mutex moves on. -/
lemma Invariant.goto (h : Invariant value s) (ht : s.threads[t]? = some pc) (hpc : pc.holds = 0)
    (hpc' : pc'.holds = 0) (hgained : pc'.gained = pc.gained)
    (hpolls : pc'.polls s.sem.gen = false) (htook : pc'.Took (s.took t)) :
    Invariant value (s.goto t pc') where
  mutex := (tally_set_same ht (by rw [hpc, hpc'])).trans h.mutex
  low := h.low
  high := h.high
  knows u q hu := by
    rcases of_getElem?_set hu with ⟨-, rfl⟩ | ⟨-, hu⟩
    · exact Pc.knows_of_holds hpc' _
    · exact h.knows u q hu
  account := h.account
  granted := (congrArg _ (tally_set_same ht hgained)).trans h.granted
  took u q hu := by
    rcases of_getElem?_set hu with ⟨rfl, rfl⟩ | ⟨-, hu⟩
    · exact htook
    · exact h.took u q hu
  refused := h.refused
  awake hpos := by
    rcases h.awake hpos with hall | ⟨v, hv⟩
    · refine .inl fun q hq => ?_
      rcases List.mem_or_eq_of_mem_set hq with hq | rfl
      · exact hall q hq
      · exact hpolls
    · obtain ⟨u, hu⟩ := List.mem_iff_getElem?.mp hv
      have hne : t ≠ u := by
        rintro rfl
        obtain rfl : pc = .notify v := Option.some_inj.mp (ht.symm.trans hu)
        cases hpc
      refine .inr ⟨v, List.mem_iff_getElem?.mpr ⟨u, ?_⟩⟩
      exact (List.getElem?_set_ne hne).trans hu

/-- The units of the waits that have returned. -/
lemma countP_returnsAfter (s : State) (t : ℕ) (pc : Pc) :
    (s.returnsAfter t pc).countP (·.result = 0) =
      s.returns.countP (·.result = 0) + pc.gained := by
  cases pc with
  | leaveWait result =>
    rw [State.returnsAfter, List.countP_append, List.countP_singleton, Pc.gained]
    simp
  | _ => rfl

/-- Only the wait of the thread takes a unit. -/
lemma tookAfter_eq (s : State) (t : ℕ) (pc : Pc) (u : ℕ) :
    s.tookAfter t pc u = if u = t ∧ pc = .take then s.took t + 1 else s.took u := by
  cases pc with
  | take =>
    simp only [State.tookAfter, Function.update_apply, and_true]
  | _ => simp [State.tookAfter]

/-- **Every access that fits keeps the account.**

**Proof sketch.** The access changes the count only with the mutex, which no other thread has, and
so leaves what the others know. For the wakeups: a thread that begins to poll has read the
generation while the count was not positive; the count becomes positive only at `++sem->value`,
behind which the thread is about to change the generation; and behind `pthread_cond_signal` no
thread polls for the new one. -/
lemma Invariant.accessed {sem : Semaphore} (h : Invariant value s)
    (ht : s.threads[t]? = some pc) (haccess : s.sem.access pc = some (sem, pc'))
    (hfits : s.FitsAt pc) : Invariant value (s.accessed t pc sem pc') := by
  have hvalue := access_value haccess h.low h.high (by rintro rfl; exact hfits)
  have hknows : pc.Knows s.sem.value := h.knows t pc ht
  have hknows' : pc'.Knows sem.value := access_knows haccess hknows
  have htake : pc = .take → 0 < s.sem.value := by rintro rfl; exact hknows
  have hincrement : pc = .increment → s.sem.value < 2 ^ 63 - 1 := by rintro rfl; exact hfits
  have hother : ∀ (u : ℕ) (q : Pc), u ≠ t → s.threads[u]? = some q → q.Knows sem.value := by
    intro u q hne hu
    by_cases hpc : pc.holds = 1
    · exact Pc.knows_of_holds (h.holds_of_ne ht hpc hu hne) _
    · have hsame : sem.value = s.sem.value := by
        have h₁ : pc ≠ .take := by rintro rfl; exact hpc rfl
        have h₂ : pc ≠ .increment := by rintro rfl; exact hpc rfl
        simpa [h₁, h₂] using hvalue
      rw [hsame]
      exact h.knows u q hu
  constructor
  · have hholds := access_holds haccess (by rw [← h.mutex]; exact le_tally ht)
    have hset := tally_set (w := Pc.holds) (b := pc') ht
    have hmutex := h.mutex
    change tally Pc.holds (s.threads.set t pc') = sem.taken
    omega
  · change 0 ≤ sem.value
    have hlow := h.low
    split_ifs at hvalue with h₁ h₂
    · cases h₁.symm.trans h₂
    · have := htake h₁
      omega
    · omega
    · omega
  · change sem.value < 2 ^ 63
    have hhigh := h.high
    split_ifs at hvalue with h₁ h₂ h₂
    · cases h₁.symm.trans h₂
    · omega
    · have := hincrement h₂
      omega
    · omega
  · intro u q hu
    rcases of_getElem?_set hu with ⟨-, rfl⟩ | ⟨hne, hu⟩
    · exact hknows'
    · exact hother u q hne hu
  · have haccount := h.account
    simp only [State.accessed]
    split_ifs at hvalue ⊢ <;> push_cast <;> omega
  · have hset := tally_set (w := Pc.gained) (b := pc') ht
    have hgained := access_gained haccess
    have hgranted := h.granted
    have hcount := countP_returnsAfter s t pc
    simp only [State.accessed]
    split_ifs at hgained ⊢ <;> omega
  · intro u q hu
    simp only [State.accessed, tookAfter_eq]
    rcases of_getElem?_set hu with ⟨rfl, rfl⟩ | ⟨hne, hu⟩
    · simpa using access_took haccess (h.took u pc ht)
    · simpa [hne] using h.took u q hu
  · intro r hr
    have htook := h.took t pc ht
    cases pc with
    | leaveWait result =>
      rcases List.mem_append.mp hr with hr | hr
      · exact h.refused r hr
      · rw [List.mem_singleton.mp hr]
        intro hresult
        exact htook.trans (if_neg hresult)
    | _ => exact h.refused r hr
  · intro hpos
    change 0 < sem.value at hpos
    have hmoved : ∀ v, pc ≠ .notify v → .notify v ∈ s.threads → .notify v ∈ s.threads.set t pc' := by
      intro v hne hv
      obtain ⟨u, hu⟩ := List.mem_iff_getElem?.mp hv
      have htu : t ≠ u := by
        rintro rfl
        exact hne (Option.some_inj.mp (ht.symm.trans hu))
      exact List.mem_iff_getElem?.mpr ⟨u, (List.getElem?_set_ne htu).trans hu⟩
    by_cases hnotify : ∃ v, pc = .notify v
    · -- The generation changes, and by the condition no thread polls for the new one.
      obtain ⟨v, rfl⟩ := hnotify
      cases haccess
      obtain rfl : v = s.sem.value := hknows
      have hv : 0 < s.sem.value := by
        by_cases hv : 0 < s.sem.value
        · exact hv
        · rwa [if_neg hv] at hpos
      refine .inl fun q hq => ?_
      simp only [State.accessed, if_pos hv]
      rcases List.mem_or_eq_of_mem_set hq with hq | rfl
      · exact hfits hv q hq
      · rfl
    · have hgen : sem.gen = s.sem.gen := access_gen haccess fun v hv => hnotify ⟨v, hv⟩
      by_cases hinc : pc = .increment
      · subst hinc
        obtain ⟨v, rfl⟩ := access_eq_increment haccess
        have hlt := (List.getElem?_eq_some_iff.mp ht).1
        exact .inr ⟨v, List.mem_set hlt _⟩
      · have hpos' : 0 < s.sem.value := by
          rw [if_neg hinc] at hvalue
          split_ifs at hvalue <;> omega
        rcases h.awake hpos' with hall | ⟨v, hv⟩
        · refine .inl fun q hq => ?_
          simp only [State.accessed, hgen]
          rcases List.mem_or_eq_of_mem_set hq with hq | rfl
          · exact hall q hq
          · -- Whoever begins to poll knows that the count is not positive.
            by_contra hpolls
            obtain ⟨timed, rfl⟩ := access_polls haccess (by simpa using hpolls)
            exact absurd hpos' (Int.not_lt.mpr hknows)
        · exact .inr ⟨v, hmoved v (fun heq => hnotify ⟨v, heq⟩) hv⟩

/-- **Every step that fits keeps the account.** -/
theorem Invariant.step {a : Action} (h : Invariant value s) (hfits : Fits s a)
    (hs : Step s a s') : Invariant value s' := by
  cases hs with
  | signal ht => exact h.goto ht rfl rfl rfl rfl trivial
  | wait ht =>
    next t timeout =>
    have htook : Invariant value { s with took := Function.update s.took t 0 } :=
      { h with
        took := fun u q hu => by
          by_cases hut : u = t
          · subst hut
            obtain rfl : Pc.client = q := Option.some_inj.mp (ht.symm.trans hu)
            trivial
          · simpa [hut] using h.took u q hu }
    exact htook.goto ht rfl rfl rfl rfl (Function.update_self t 0 s.took)
  | run ht haccess => exact h.accessed ht haccess (hfits _ ht)
  | timeOut ht =>
    have htook := h.took _ _ ht
    exact h.goto ht rfl rfl rfl rfl htook

/-- A new semaphore. -/
lemma Invariant.init (hvalue : 0 ≤ value) (hmax : value < 2 ^ 63) (n : ℕ) :
    Invariant value (init value n) := by
  have hclient : ∀ (t : ℕ) (pc : Pc), (List.replicate n Pc.client)[t]? = some pc →
      pc = .client := fun t pc h => List.eq_of_mem_replicate (List.mem_of_getElem? h)
  constructor
  · exact tally_eq_zero fun pc hpc => by rw [List.eq_of_mem_replicate hpc]; rfl
  · exact hvalue
  · exact hmax
  · intro t pc ht
    rw [hclient t pc ht]
    trivial
  · rfl
  · refine (Nat.zero_add _).trans (tally_eq_zero fun pc hpc => ?_)
    rw [List.eq_of_mem_replicate hpc]
    rfl
  · intro t pc ht
    rw [hclient t pc ht]
    trivial
  · exact nofun
  · intro _
    refine .inl fun pc hpc => ?_
    rw [List.eq_of_mem_replicate hpc]
    rfl

/-- What the account says to the clients. -/
lemma Invariant.toCounts (h : Invariant value s) : Counts value s where
  nonneg := h.low
  granted := by
    have haccount := h.account
    have hgranted := h.granted
    have hlow := h.low
    omega
  refused := h.refused
  awake hfree hpos := by
    rcases h.awake hpos with hall | ⟨v, hv⟩
    · exact hall
    · -- The thread that is about to change the generation has the mutex.
      obtain ⟨u, hu⟩ := List.mem_iff_getElem?.mp hv
      have hle : Pc.holds (.notify v) ≤ tally Pc.holds s.threads := le_tally hu
      rw [h.mutex, taken, hfree] at hle
      exact absurd hle (Nat.not_succ_le_zero 0)

/-- **A semaphore counts.** In every state that any number of threads reach, in every interleaving
whose steps fit: the count is not negative; no more waits have returned 0 than the semaphore was
created with and signals have added; a wait that returned another value took no unit; and while the
mutex is free and the count positive, no thread polls for the current generation.

**Proof sketch.** The account holds of a new semaphore and is kept by every step that fits; a thread
that is about to change the generation has the mutex. -/
theorem counts (hvalue : 0 ≤ value) (hmax : value < 2 ^ 63) (n : ℕ) {as : List Action}
    (hfits : Transition.Along step Fits (Semaphore.init value n) as)
    (h : Transition.exec step (Semaphore.init value n) as = some s) : Counts value s :=
  (Transition.invariant_along (fun _ _ _ hinv hfit hstep => hinv.step hfit (Step.of_step hstep))
    (Invariant.init hvalue hmax n) hfits h).toCounts

end

/-- A thread waits, polls, and is woken by a signal; another one gives up. -/
theorem counts_woken :
    ∃ s, Transition.exec step (init 0 3) [.wait 0 dispatchTimeForever, .run 0, .run 0, .run 0,
      .run 0, .wait 1 dispatchTimeNow, .run 1, .run 1, .run 1, .signal 2, .run 2, .run 2, .run 2,
      .run 2, .run 0, .run 0, .run 0, .run 0, .run 0] = some s ∧
      s.returns = [⟨-1, 0⟩, ⟨0, 1⟩] ∧ Counts 0 s := by
  obtain ⟨s, hs, hreturns⟩ : ∃ s, Transition.exec step (init 0 3) [.wait 0 dispatchTimeForever,
      .run 0, .run 0, .run 0, .run 0, .wait 1 dispatchTimeNow, .run 1, .run 1, .run 1, .signal 2,
      .run 2, .run 2, .run 2, .run 2, .run 0, .run 0, .run 0, .run 0, .run 0] = some s ∧
      s.returns = [⟨-1, 0⟩, ⟨0, 1⟩] := ⟨_, rfl, rfl⟩
  exact ⟨s, hs, hreturns, counts (by decide) (by decide) 3 (by decide) hs⟩

/-! ## A generation that goes round -/

/-- The first thread polls for generation 0; the second has signalled `n` times. -/
def signalled (gen n : ℕ) : State where
  sem := ⟨false, gen, n⟩
  threads := [.polling false 0, .client]
  signals := n
  units := 0
  took _ := 0
  returns := []

/-- A call of `dispatch_semaphore_signal` by the second thread. -/
def signalCall : List Action := [.signal 1, .run 1, .run 1, .run 1, .run 1]

/-- A signal while the first thread does not run. -/
lemma exec_signalCall {gen n : ℕ} (hn : n + 1 < 2 ^ 63) :
    Transition.exec step (signalled gen n) signalCall =
      some (signalled (nextGen gen) (n + 1)) := by
  have hlong : toLong ((n : ℤ) + 1) = n + 1 := toLong_of_lt (by omega) (by omega)
  have hpos : (0 : ℤ) < n + 1 := by omega
  simp [signalCall, signalled, Transition.exec, step, access, lock, unlock, State.goto,
    State.accessed, State.tookAfter, State.returnsAfter, hlong, hpos]

/-- As many signals as are needed. -/
lemma exec_signalCalls {gen k : ℕ} (hgen : gen < 2 ^ 32) (n : ℕ) (hn : k + n < 2 ^ 63) :
    Transition.exec step (signalled gen k) (List.replicate n signalCall).flatten =
      some (signalled ((gen + n) % 2 ^ 32) (k + n)) := by
  induction n generalizing gen k with
  | zero =>
    rw [Nat.add_zero, Nat.mod_eq_of_lt hgen]
    rfl
  | succ n ih =>
    rw [List.replicate_succ, List.flatten_cons, Transition.exec_append]
    refine ⟨_, exec_signalCall (by omega), ?_⟩
    have hnext : nextGen gen < 2 ^ 32 := Nat.mod_lt _ (by decide)
    rw [ih hnext (by omega)]
    congr 2
    · rw [nextGen]
      omega
    · omega

/-- The first thread waits and polls; 4294967296 signals bring the generation back to the one it
has read, with the count at 4294967296 and the mutex free. -/
theorem not_counts :
    ∃ (as : List Action) (s : State), Transition.exec step (init 0 2) as = some s ∧
      s.signals = 2 ^ 32 ∧ ¬Counts 0 s := by
  refine ⟨[Action.wait 0 dispatchTimeForever, .run 0, .run 0, .run 0, .run 0] ++
    (List.replicate (2 ^ 32) signalCall).flatten, signalled ((0 + 2 ^ 32) % 2 ^ 32) (0 + 2 ^ 32),
    ?_, ?_, ?_⟩
  · rw [Transition.exec_append]
    refine ⟨signalled 0 0, ?_, exec_signalCalls (by decide) _ (by decide)⟩
    simp [Transition.exec, step, access, lock, unlock, State.goto, State.wait, State.accessed,
      State.tookAfter, State.returnsAfter, signalled, init, create, afterTest]
  · exact Nat.zero_add _
  · intro h
    exact absurd (h.awake rfl (by decide) (.polling false 0) (by simp [signalled])) (by decide)

end Asteros.Dispatch.Semaphore
