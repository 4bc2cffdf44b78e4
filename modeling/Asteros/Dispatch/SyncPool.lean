import Asteros.Dispatch.Scheduling
import Asteros.Lib.WaitGraph

set_option autoImplicit false

/-!
# `dispatch_sync` and the size of the pool

`dispatch_sync_f` pushes an item and waits for its semaphore, and a worker that runs an item which
does so is gone from the pool until another worker has run the item it waits for. The pool has a
fixed number of workers, and the only check is that a thread does not wait for the queue it is
draining.

## Main definitions

* `Stuck` — no thread can go on.
* `Respects` — items of one queue wait for another one only as a relation allows.

## Main results

* `not_stuck` — while one worker is not in `dispatch_sync_f`, a program that does not wait in cycles
  goes on as long as there is work.
* `stuck_pool` — two workers, both in `dispatch_sync_f` for a third queue.
-/

namespace Asteros.Dispatch

open Relation Tally

variable {α : Type}

/-! ## Definitions -/

/-- The step is not the start of a further push by the code of a client. -/
def Action.IsProgress : Action α → Prop
  | .async _ _ _ | .sync _ _ => False
  | .runnablePush _ | .wake _ | .pop _ | .begin _ | .finish _ | .drainNext _ => True

/-- No thread can go on. -/
def Stuck (s : State α) : Prop := ∀ a : Action α, a.IsProgress → step s a = none

/-- Some item is on a queue, or is being run. -/
def Pending (s : State α) : Prop := ∃ q, (s.queues q).items ≠ [] ∨ ∃ th ∈ s.threads, th.Runs q

/-- The thread is blocked in `dispatch_sync_f`. -/
def BlockedInSync (s : State α) (t : ℕ) : Prop :=
  ∃ th q k, s.threads[t]? = some th ∧ th.call = .waiting q k ∧ s.semaphores k = 0

/-- Items of one queue call `dispatch_sync` for another one only where the relation says so. -/
def Respects (R : ℕ → ℕ → Prop) (s : State α) : Action α → Prop
  | .sync t q =>
    match s.threads[t]?.map Thread.role with
    | some (.running p _) => R p q
    | _ => True
  | _ => True

instance (R : ℕ → ℕ → Prop) [DecidableRel R] (s : State α) (a : Action α) :
    Decidable (Respects R s a) := by
  unfold Respects
  split
  · split <;> infer_instance
  · infer_instance

/-- The queue and the semaphore that a call waits for, or will. -/
def Call.awaited : Call → Option (ℕ × ℕ)
  | .waiting q k | .pushing q (some k) => some (q, k)
  | .none | .pushing _ .none => .none

/-- The queue that a worker is at. -/
def Role.queue : Role α → Option ℕ
  | .popped q | .running q _ | .returned q => some q
  | .client | .top => none

/-- There is somebody who will signal: the item is on its queue, or is being run, or was. -/
def Answered (s : State α) (q k : ℕ) : Prop :=
  (∃ item ∈ (s.queues q).items, item.func = .syncTrampoline k) ∨
    (∃ (j : ℕ) (y : Thread α) (item : Item α),
      s.threads[j]? = some y ∧ y.role = .running q item ∧ item.func = .syncTrampoline k) ∨
    0 < s.semaphores k

/-- What the waits of a program that respects the relation are about. -/
structure Waits (R : ℕ → ℕ → Prop) (n : ℕ) (s : State α) : Prop where
  /-- There are `n` workers. -/
  pool : n ≤ s.threads.length
  /-- The first `n` threads are the workers. -/
  workers : ∀ (i : ℕ) (x : Thread α), s.threads[i]? = some x → (x.role = .client ↔ n ≤ i)
  /-- Who waits is answered. -/
  answered : ∀ (i : ℕ) (x : Thread α), s.threads[i]? = some x →
    ∀ q k, x.call.awaited = some (q, k) → Answered s q k
  /-- No two wait for one semaphore. -/
  apart : ∀ (i j : ℕ) (x y : Thread α), s.threads[i]? = some x → s.threads[j]? = some y →
    ∀ q p k, x.call.awaited = some (q, k) → y.call.awaited = some (p, k) → i = j
  /-- Semaphores are numbered like items. -/
  fresh : ∀ (i : ℕ) (x : Thread α), s.threads[i]? = some x →
    ∀ q k, x.call.awaited = some (q, k) → k < s.nextItem
  /-- The waits of items are as the relation says. -/
  respects : ∀ (i : ℕ) (x : Thread α), s.threads[i]? = some x →
    ∀ p item, x.role = .running p item → ∀ q k, x.call.awaited = some (q, k) → R p q

/-! ## The invariant -/

section

variable {R : ℕ → ℕ → Prop} {n t : ℕ} {s s' : State α} {th th' : Thread α}

/-- A thread moves on, what is answered stays so, and what the thread now waits for is what it was
to wait for, or what it has just pushed. -/
lemma Waits.moved (h : Waits R n s) (hth : s.threads[t]? = some th)
    (hthreads : s'.threads = s.threads.set t th') (hnext : s.nextItem ≤ s'.nextItem)
    (hclient : th'.role = .client ↔ th.role = .client)
    (hrunning : ∀ p item, th'.role = .running p item →
      th.role = .running p item ∨ th'.call.awaited = none)
    (hawaited : ∀ q k, th'.call.awaited = some (q, k) → th.call.awaited = some (q, k) ∨
      (k = s.nextItem ∧ k < s'.nextItem ∧ Answered s' q k ∧
        ∀ p item, th'.role = .running p item → R p q))
    (hanswered : ∀ (j : ℕ) (y : Thread α), s'.threads[j]? = some y →
      ∀ q k, y.call.awaited = some (q, k) → Answered s q k → Answered s' q k) :
    Waits R n s' := by
  have hmoved : ∀ {i : ℕ} {x : Thread α}, s'.threads[i]? = some x →
      (i = t ∧ x = th') ∨ (i ≠ t ∧ s.threads[i]? = some x) := by
    intro i x hx
    rw [hthreads] at hx
    exact threads_goto (s := s) hx
  constructor
  · rw [hthreads, List.length_set]
    exact h.pool
  · intro i x hx
    rcases hmoved hx with ⟨rfl, rfl⟩ | ⟨-, hx⟩
    · exact hclient.trans (h.workers i th hth)
    · exact h.workers i x hx
  · intro i x hx q k hk
    rcases hmoved hx with ⟨rfl, rfl⟩ | ⟨-, hold⟩
    · rcases hawaited q k hk with hbefore | ⟨-, -, hnow, -⟩
      · exact hanswered i x hx q k hk (h.answered i th hth q k hbefore)
      · exact hnow
    · exact hanswered i x hx q k hk (h.answered i x hold q k hk)
  · intro i j x y hx hy q p k hi hj
    rcases hmoved hx with ⟨rfl, rfl⟩ | ⟨hit, hxold⟩
    · rcases hmoved hy with ⟨rfl, rfl⟩ | ⟨hjt, hyold⟩
      · rfl
      · rcases hawaited q k hi with hbefore | ⟨rfl, -⟩
        · exact h.apart i j th y hth hyold q p k hbefore hj
        · exact absurd (h.fresh j y hyold p _ hj) (Nat.lt_irrefl _)
    · rcases hmoved hy with ⟨rfl, rfl⟩ | ⟨hjt, hyold⟩
      · rcases hawaited p k hj with hbefore | ⟨rfl, -⟩
        · exact h.apart i j x th hxold hth q p k hi hbefore
        · exact absurd (h.fresh i x hxold q _ hi) (Nat.lt_irrefl _)
      · exact h.apart i j x y hxold hyold q p k hi hj
  · intro i x hx q k hk
    rcases hmoved hx with ⟨rfl, rfl⟩ | ⟨-, hold⟩
    · rcases hawaited q k hk with hbefore | ⟨-, hlt, -⟩
      · exact Nat.lt_of_lt_of_le (h.fresh i th hth q k hbefore) hnext
      · exact hlt
    · exact Nat.lt_of_lt_of_le (h.fresh i x hold q k hk) hnext
  · intro i x hx p item hrole q k hk
    rcases hmoved hx with ⟨rfl, rfl⟩ | ⟨-, hold⟩
    · rcases hawaited q k hk with hbefore | ⟨-, -, -, hR⟩
      · rcases hrunning p item hrole with hrun | hnone
        · exact h.respects i th hth p item hrun q k hbefore
        · rw [hnone] at hk
          cases hk
      · exact hR p item hrole
    · exact h.respects i x hold p item hrole q k hk

/-- A thread moves on with its item, or without one: the other items are run as before. -/
lemma running_goto (hthreads : s'.threads = s.threads.set t th') (hth : s.threads[t]? = some th)
    {q : ℕ} {item : Item α} (hkeep : th.role = .running q item → th'.role = .running q item)
    {j : ℕ} {y : Thread α} (hy : s.threads[j]? = some y) (hrole : y.role = .running q item) :
    ∃ (j : ℕ) (y : Thread α), s'.threads[j]? = some y ∧ y.role = .running q item := by
  by_cases hj : j = t
  · subst hj
    obtain rfl : th = y := Option.some_inj.mp (hth.symm.trans hy)
    refine ⟨j, th', ?_, hkeep hrole⟩
    rw [hthreads, List.getElem?_set_self (List.getElem?_eq_some_iff.mp hth).1]
  · refine ⟨j, y, ?_, hrole⟩
    rw [hthreads, List.getElem?_set_ne (Ne.symm hj)]
    exact hy

/-- What is answered stays so when items are only added, the thread that moves keeps its item, and
no signal is taken. -/
lemma Answered.mono {q k : ℕ} (h : Answered s q k) (hth : s.threads[t]? = some th)
    (hthreads : s'.threads = s.threads.set t th')
    (hkeep : ∀ item, th.role = .running q item → th'.role = .running q item)
    (hitems : (s.queues q).items ⊆ (s'.queues q).items)
    (hsem : s.semaphores k ≤ s'.semaphores k) : Answered s' q k := by
  rcases h with ⟨item, hitem, hfunc⟩ | ⟨j, y, item, hy, hrole, hfunc⟩ | hpos
  · exact .inl ⟨item, hitems hitem, hfunc⟩
  · obtain ⟨i, x, hx, hrunning⟩ := running_goto hthreads hth (hkeep item) hy hrole
    exact .inr (.inl ⟨i, x, item, hx, hrunning, hfunc⟩)
  · exact .inr (.inr (Nat.lt_of_lt_of_le hpos hsem))

/-- What a push waits for. -/
lemma awaited_pushes {q : ℕ} {shouldPush : Bool} {done : Option ℕ} :
    (th.pushes q shouldPush done).call.awaited = done.map fun k => (q, k) := by
  cases shouldPush <;> cases done <;> rfl

/-- A push leaves what is on the queues. -/
lemma items_pushed {q p : ℕ} {func : Func α} :
    (s.queues p).items ⊆ ((s.pushItem q func).1.queues p).items := by
  by_cases hp : p = q
  · subst hp
    have hq : (s.pushItem p func).1.queues p =
        ((s.queues p).pushItem ⟨s.nextItem, func⟩).1 := Function.update_self ..
    rw [hq, Queue.items_pushItem]
    exact List.subset_append_left _ _
  · have hq : (s.pushItem q func).1.queues p = s.queues p := Function.update_of_ne hp ..
    rw [hq]
    exact List.Subset.refl _

/-- A worker takes an item, or finds none: what was answered is. -/
lemma Answered.taken {q p k : ℕ} (h : Answered s p k) (hth : s.threads[t]? = some th)
    {got : Option (Item α) × Queue α}
    (hitems : (s.queues q).items = got.1.toList ++ got.2.items)
    (hrole : ∀ p item, th.role ≠ .running p item) : Answered (s.take t th q got) p k := by
  have hthreads : (s.take t th q got).threads =
      s.threads.set t (th.took q (s.queues q).isSerial got.1) := rfl
  rcases h with ⟨item, hitem, hfunc⟩ | ⟨j, y, item, hy, hrun, hfunc⟩ | hpos
  · by_cases hp : p = q
    · subst hp
      have hq : (s.take t th p got).queues p = got.2 := Function.update_self ..
      rw [hitems] at hitem
      rcases List.mem_append.mp hitem with hitem | hitem
      · refine .inr (.inl ⟨t, _, item, List.getElem?_set_self
          (List.getElem?_eq_some_iff.mp hth).1, ?_, hfunc⟩)
        rw [role_took, Option.mem_toList.mp hitem]
      · exact .inl ⟨item, by rw [hq]; exact hitem, hfunc⟩
    · have hq : (s.take t th q got).queues p = s.queues p := Function.update_of_ne hp ..
      exact .inl ⟨item, by rw [hq]; exact hitem, hfunc⟩
  · obtain ⟨i, x, hx, hrunning⟩ := running_goto hthreads hth
      (fun hkeep => absurd hkeep (hrole _ _)) hy hrun
    exact .inr (.inl ⟨i, x, item, hx, hrunning, hfunc⟩)
  · exact .inr (.inr hpos)

/-- A worker is no thread of the client, whatever it got. -/
lemma role_took_ne {q : ℕ} {isSerial : Bool} {got : Option (Item α)} :
    (th.took q isSerial got).role ≠ .client := by
  rw [role_took]
  split <;> exact nofun

/-- The end of an item: it signals, if somebody waits for it. -/
lemma Answered.finished {q p k : ℕ} {item : Item α} (h : Answered s p k)
    (hth : s.threads[t]? = some th) (hrole : th.role = .running q item) :
    Answered ((s.signal item.func).goto t th') p k := by
  have hqueues : ((s.signal item.func).goto t th').queues = s.queues := by
    cases item.func <;> rfl
  have hthreads : ((s.signal item.func).goto t th').threads = s.threads.set t th' := by
    cases item.func <;> rfl
  have hmore : s.semaphores k ≤ ((s.signal item.func).goto t th').semaphores k := by
    cases item.func with
    | client f => exact Nat.le_refl _
    | syncTrampoline j =>
      by_cases hk : k = j
      · subst hk
        simp [State.signal, State.goto]
      · simp [State.signal, State.goto, hk]
  by_cases hmine : item.func = .syncTrampoline k
  · refine .inr (.inr ?_)
    simp [State.signal, State.goto, hmine]
  · rcases h with ⟨i, hi, hfunc⟩ | ⟨j, y, i, hy, hrun, hfunc⟩ | hpos
    · exact .inl ⟨i, by rw [hqueues]; exact hi, hfunc⟩
    · have hj : j ≠ t := by
        rintro rfl
        obtain rfl : th = y := Option.some_inj.mp (hth.symm.trans hy)
        obtain ⟨-, rfl⟩ := Role.running.inj (hrole.symm.trans hrun)
        exact hmine hfunc
      refine .inr (.inl ⟨j, y, i, ?_, hrun, hfunc⟩)
      rw [hthreads, List.getElem?_set_ne (Ne.symm hj)]
      exact hy
    · exact .inr (.inr (Nat.lt_of_lt_of_le hpos hmore))

/-- The item of a queue that calls `dispatch_sync`. -/
lemma Respects.of_running {q p : ℕ} {item : Item α} (h : Respects R s (.sync t q))
    (hth : s.threads[t]? = some th) (hrole : th.role = .running p item) : R p q := by
  simpa only [Respects, hth, Option.map_some, hrole] using h

/-- **Every step of a program that respects the relation** keeps what its waits are about. -/
theorem Waits.step (h : Waits R n s)
    (hplaced : ∀ (i : ℕ) (x : Thread α), s.threads[i]? = some x → x.Placed s) {a : Action α}
    (hR : Respects R s a) (hs : Step s a s') : Waits R n s' := by
  cases hs with
  | @async t q f th hth hin =>
    refine h.moved hth rfl (Nat.le_succ _) Iff.rfl (fun p item hrole => .inl hrole) ?_ ?_
    · intro p k hk
      rw [awaited_pushes] at hk
      cases hk
    · intro j y hy p k hk hanswered
      exact hanswered.mono hth rfl (fun _ hrole => hrole) items_pushed (Nat.le_refl _)
  | @sync t q th hth hin hkey =>
    refine h.moved hth rfl (Nat.le_succ _) Iff.rfl (fun p item hrole => .inl hrole) ?_ ?_
    · intro p k hk
      rw [awaited_pushes] at hk
      obtain ⟨rfl, rfl⟩ := Prod.mk.inj (Option.some_inj.mp hk)
      refine .inr ⟨rfl, Nat.lt_succ_self _, .inl ⟨⟨s.nextItem, .syncTrampoline s.nextItem⟩, ?_, rfl⟩,
        fun p item hrole => hR.of_running hth hrole⟩
      have hq : (s.pushItem q (.syncTrampoline s.nextItem)).1.queues q =
          ((s.queues q).pushItem ⟨s.nextItem, .syncTrampoline s.nextItem⟩).1 :=
        Function.update_self ..
      change _ ∈ ((s.pushItem q (.syncTrampoline s.nextItem)).1.queues q).items
      rw [hq, Queue.items_pushItem]
      exact List.mem_append_right _ (List.mem_singleton_self _)
    · intro j y hy p k hk hanswered
      exact hanswered.mono hth rfl (fun _ hrole => hrole) items_pushed (Nat.le_refl _)
  | @runnablePush t q done th hth hcall =>
    have hsame : (th.pushes q false done).call.awaited = th.call.awaited := by
      rw [awaited_pushes, hcall]
      cases done <;> rfl
    refine h.moved hth rfl (Nat.le_refl _) Iff.rfl (fun p item hrole => .inl hrole) ?_ ?_
    · intro p k hk
      exact .inl (hsame.symm.trans hk)
    · intro j y hy p k hk hanswered
      exact hanswered.mono hth rfl (fun _ hrole => hrole) (List.Subset.refl _) (Nat.le_refl _)
  | @wake t q k th hth hcall hpos =>
    refine h.moved hth rfl (Nat.le_refl _) Iff.rfl (fun p item hrole => .inl hrole) ?_ ?_
    · intro p i hi
      cases hi
    · intro j y hy p i hi hanswered
      have hne : i ≠ k := by
        rintro rfl
        rcases threads_goto (s := s) hy with ⟨rfl, rfl⟩ | ⟨hj, hold⟩
        · cases hi
        · exact hj (h.apart j t y th hold hth p q i hi (by rw [hcall]; rfl))
      refine hanswered.mono hth rfl (fun _ hrole => hrole) (List.Subset.refl _) ?_
      change _ ≤ Function.update s.semaphores k (s.semaphores k - 1) i
      rw [Function.update_of_ne hne]
  | @pop t q rest th hth hrole hrun =>
    have hcall := (hplaced t th hth).call_eq (by rw [hrole]; exact nofun)
      (fun q item => by rw [hrole]; exact nofun)
    refine h.moved hth rfl (Nat.le_refl _) (by rw [hrole]; exact ⟨nofun, nofun⟩) nofun ?_ ?_
    · exact fun p k hk => .inl hk
    · intro j y hy p k hk hanswered
      exact hanswered.mono hth rfl (fun item hr => by rw [hrole] at hr; cases hr)
        (List.Subset.refl _) (Nat.le_refl _)
  | @begin t q th hth hrole =>
    have hcall := (hplaced t th hth).call_eq (by rw [hrole]; exact nofun)
      (fun q item => by rw [hrole]; exact nofun)
    have hnone : (th.took q (s.queues q).isSerial (s.queues q).begin.1).call.awaited = none := by
      rw [call_took, hcall]
      rfl
    refine h.moved hth rfl (Nat.le_refl _) ?_ (fun _ _ _ => .inr hnone) ?_ ?_
    · rw [hrole]
      exact ⟨fun hclient => absurd hclient role_took_ne, nofun⟩
    · intro p k hk
      rw [hnone] at hk
      cases hk
    · intro j y hy p k hk hanswered
      exact hanswered.taken hth Queue.items_begin (fun _ _ => by rw [hrole]; exact nofun)
  | @finishSerial t q item th hth hrole hcall hserial =>
    refine h.moved hth (by cases item.func <;> rfl) (by cases item.func <;> exact Nat.le_refl _)
      (by rw [hrole]; exact ⟨nofun, nofun⟩) (fun _ _ hrun => by cases hrun) ?_ ?_
    · exact fun p k hk => .inl hk
    · intro j y hy p k hk hanswered
      exact hanswered.finished hth hrole
  | @finishConcurrent t q item th hth hrole hcall hserial =>
    refine h.moved hth (by cases item.func <;> rfl) (by cases item.func <;> exact Nat.le_refl _)
      (by rw [hrole]; exact ⟨nofun, nofun⟩) (fun _ _ hrun => by cases hrun) ?_ ?_
    · exact fun p k hk => .inl hk
    · intro j y hy p k hk hanswered
      exact hanswered.finished hth hrole
  | @drainNext t q th hth hrole =>
    have hcall := (hplaced t th hth).call_eq (by rw [hrole]; exact nofun)
      (fun q item => by rw [hrole]; exact nofun)
    have hnone : (th.took q (s.queues q).isSerial (s.queues q).drainNext.1).call.awaited =
        none := by
      rw [call_took, hcall]
      rfl
    refine h.moved hth rfl (Nat.le_refl _) ?_ (fun _ _ _ => .inr hnone) ?_ ?_
    · rw [hrole]
      exact ⟨fun hclient => absurd hclient role_took_ne, nofun⟩
    · intro p k hk
      rw [hnone] at hk
      cases hk
    · intro j y hy p k hk hanswered
      exact hanswered.taken hth (Queue.items_drainNext _) (fun _ _ => by rw [hrole]; exact nofun)

/-! ## Stuck states -/

/-- In a stuck state nobody is before a push, has a node, or is between two items. -/
lemma Stuck.not_holds (h : Stuck s) (hth : s.threads[t]? = some th) (q : ℕ) : ¬th.Holds q := by
  rintro (⟨done, hcall⟩ | hrole)
  · have hstep := h (.runnablePush t) trivial
    simp [Dispatch.step, hth, hcall] at hstep
  · have hstep := h (.begin t) trivial
    simp [Dispatch.step, hth, hrole] at hstep

/-- In a stuck state whoever is in an item waits. -/
lemma Stuck.waits (h : Stuck s) (hth : s.threads[t]? = some th) {q : ℕ} (hruns : th.Runs q) :
    ∃ p k, th.call = .waiting p k ∧ s.semaphores k = 0 := by
  obtain ⟨item, hrole⟩ := hruns
  cases hcall : th.call with
  | none =>
    have hstep := h (.finish t) trivial
    simp only [Dispatch.step, hth, hrole, hcall] at hstep
    split at hstep <;> cases hstep
  | pushing p done => exact absurd (.inl ⟨done, hcall⟩) (h.not_holds hth p)
  | waiting p k =>
    refine ⟨p, k, rfl, ?_⟩
    have hstep := h (.wake t) trivial
    simp only [Dispatch.step, hth, hcall] at hstep
    split at hstep
    · cases hstep
    · omega

/-- A worker of a stuck state that is not in `dispatch_sync_f` found the list empty. -/
lemma Stuck.runnable_nil (h : Stuck s) (hth : s.threads[t]? = some th) (hclient : th.role ≠ .client)
    (hfree : ¬BlockedInSync s t) : s.runnable = [] := by
  cases hrole : th.role with
  | client => exact absurd hrole hclient
  | top =>
    have hstep := h (.pop t) trivial
    cases hrun : s.runnable with
    | nil => rfl
    | cons q rest => simp [Dispatch.step, hth, hrole, hrun] at hstep
  | popped q => exact absurd (.inr hrole) (h.not_holds hth q)
  | running q item =>
    obtain ⟨p, k, hcall, hsem⟩ := h.waits hth ⟨item, hrole⟩
    exact absurd ⟨th, p, k, hth, hcall, hsem⟩ hfree
  | returned q =>
    have hstep := h (.drainNext t) trivial
    simp [Dispatch.step, hth, hrole] at hstep

/-- A queue with an item in a stuck state whose list is empty is drained. -/
lemma Stuck.drained (h : Stuck s) (hsched : Scheduled s) (hnil : s.runnable = []) {q : ℕ}
    (hitems : (s.queues q).items ≠ []) : ∃ th ∈ s.threads, th.Runs q := by
  have hhand : ∀ th ∈ s.threads, ¬th.Holds q := by
    intro th hth
    obtain ⟨i, hi⟩ := List.getElem?_of_mem hth
    exact h.not_holds hi q
  cases hserial : (s.queues q).isSerial with
  | true =>
    rcases hsched.served q hserial hitems with ⟨-, th, hth, hruns | hrole⟩ | hlist | ⟨th, hth, hh⟩
    · exact ⟨th, hth, hruns⟩
    · obtain ⟨i, hi⟩ := List.getElem?_of_mem hth
      have hstep := h (.drainNext i) trivial
      simp [Dispatch.step, hi, hrole] at hstep
    · rw [hnil] at hlist
      cases hlist
    · exact absurd hh (hhand th hth)
  | false =>
    have hzero : s.nodes q = 0 := by
      rw [State.nodes, hnil, List.count_nil, tally_eq_zero]
      intro th hth
      have hpos := mt Thread.nodes_pos.mp (hhand th hth)
      omega
    have hle := hsched.outstanding q hserial
    rw [hzero, Nat.le_zero, List.length_eq_zero_iff] at hle
    exact absurd hle hitems

end

/-- The workers and the waits at first. -/
lemma Waits.init {R : ℕ → ℕ → Prop} (serial : ℕ → Bool) (n m : ℕ) :
    Waits R n (init serial n m : State α) := by
  have hcall : ∀ (i : ℕ) (x : Thread α), (Dispatch.init serial n m : State α).threads[i]? = some x →
      x.call.awaited = none := by
    intro i x hx
    rcases List.mem_append.mp (List.mem_of_getElem? hx) with hx | hx
    · rw [List.eq_of_mem_replicate hx]
      rfl
    · rw [List.eq_of_mem_replicate hx]
      rfl
  constructor
  · change n ≤ (List.replicate n worker ++ List.replicate m clientThread).length
    rw [List.length_append, List.length_replicate]
    exact Nat.le_add_right _ _
  · intro i x hx
    change (List.replicate n worker ++ List.replicate m clientThread)[i]? = some x at hx
    by_cases hi : i < n
    · rw [List.getElem?_append_left (by rwa [List.length_replicate]),
        List.getElem?_replicate_of_lt hi] at hx
      rw [← Option.some_inj.mp hx]
      exact ⟨nofun, fun hle => absurd hi (Nat.not_lt.mpr hle)⟩
    · rw [List.getElem?_append_right (by rw [List.length_replicate]; omega)] at hx
      rw [List.eq_of_mem_replicate (List.mem_of_getElem? hx)]
      exact ⟨fun _ => by omega, fun _ => rfl⟩
  · intro i x hx q k hk
    rw [hcall i x hx] at hk
    cases hk
  · intro i j x y hx hy q p k hk
    rw [hcall i x hx] at hk
    cases hk
  · intro i x hx q k hk
    rw [hcall i x hx] at hk
    cases hk
  · intro i x hx p item hrole q k hk
    rw [hcall i x hx] at hk
    cases hk

/-- **A program that does not wait in cycles goes on** as long as there is work and one worker is not
in `dispatch_sync_f`.

**Proof sketch.** Let the state be stuck. The free worker found the runnable list empty, and no
thread has a node in its hand, so that every queue with items is drained by somebody. A thread with
an item waits for a queue whose item is there or is run; so every queue with a running item has one
that it waits for, and the queues with running items are finitely many. -/
theorem not_stuck {R : ℕ → ℕ → Prop} (hacyclic : ∀ q, ¬TransGen R q q) (serial : ℕ → Bool)
    (n m : ℕ) {as : List (Action α)} {s : State α}
    (hrun : Transition.exec step (init serial n m) as = some s)
    (hR : Transition.Along step (Respects R) (init serial n m) as) (hpending : Pending s)
    {t : ℕ} (ht : t < n) (hfree : ¬BlockedInSync s t) : ¬Stuck s := by
  intro hstuck
  have hsched := scheduling serial n m as hrun
  have hwaits : Waits R n s := by
    refine (Transition.invariant_along
      (P := fun s => (∀ (i : ℕ) (x : Thread α), s.threads[i]? = some x → x.Placed s) ∧
        Waits R n s) ?_ ⟨?_, .init serial n m⟩ hR hrun).2
    · rintro r a r' ⟨hplaced, hr⟩ hC hstep
      have hs := Step.of_step hstep
      exact ⟨Placed.of_step hplaced hs, hr.step hplaced hC hs⟩
    · have hinit : Transition.exec step (init serial n m : State α) [] = some _ := rfl
      exact (Invariant.of_exec hinit).2.1
  obtain ⟨th, hth⟩ : ∃ th, s.threads[t]? = some th :=
    ⟨_, List.getElem?_eq_getElem (Nat.lt_of_lt_of_le ht hwaits.pool)⟩
  have hnil : s.runnable = [] := hstuck.runnable_nil hth
    (fun hclient => by have := (hwaits.workers t th hth).mp hclient; omega) hfree
  let Busy : Set ℕ := {q | ∃ th ∈ s.threads, th.Runs q}
  have hnext : ∀ q ∈ Busy, ∃ p ∈ Busy, R q p := by
    rintro q ⟨x, hx, hruns⟩
    obtain ⟨i, hi⟩ := List.getElem?_of_mem hx
    obtain ⟨p, k, hcall, hsem⟩ := hstuck.waits hi hruns
    obtain ⟨item, hrole⟩ := hruns
    refine ⟨p, ?_, hwaits.respects i x hi q item hrole p k (by rw [hcall]; rfl)⟩
    rcases hwaits.answered i x hi p k (by rw [hcall]; rfl) with
      ⟨i', hi', -⟩ | ⟨j, y, i', hy, hrun', -⟩ | hpos
    · exact hstuck.drained hsched hnil (List.ne_nil_of_mem hi')
    · exact ⟨y, List.mem_of_getElem? hy, i', hrun'⟩
    · omega
  have hfinite : Busy.Finite := by
    refine (s.threads.filterMap fun th => th.role.queue).toFinset.finite_toSet.subset ?_
    rintro q ⟨x, hx, item, hrole⟩
    exact List.mem_toFinset.mpr (List.mem_filterMap.mpr ⟨x, hx, by rw [hrole]; rfl⟩)
  have hne : Busy.Nonempty := by
    obtain ⟨q, hitems | hruns⟩ := hpending
    · exact ⟨q, hstuck.drained hsched hnil hitems⟩
    · exact ⟨q, hruns⟩
  obtain ⟨q, hq, hsink⟩ := WaitGraph.exists_sink hacyclic hfinite hne
  obtain ⟨p, hp, hqp⟩ := hnext q hq
  exact hsink p hp hqp

/-! ## Two workers in `dispatch_sync_f` -/

/-- Items of the queues 0 and 1 call `dispatch_sync` for the queue 2. -/
def ForThird (q p : ℕ) : Prop := q < 2 ∧ p = 2

instance : DecidableRel ForThird := fun q p => inferInstanceAs (Decidable (q < 2 ∧ p = 2))

/-- An item on each of the queues 0 and 1, and a worker in each of the two, before their calls. -/
def twoItems : List (Action Unit) :=
  [.async 2 0 (), .runnablePush 2, .async 2 1 (), .runnablePush 2, .pop 0, .begin 0, .pop 1,
    .begin 1]

/-- The queue 2 has two items, and both workers wait for it. -/
def twoWaits : List (Action Unit) := twoItems ++ [.sync 0 2, .sync 1 2, .runnablePush 0]

/-- No queue waits for itself. -/
lemma forThird_acyclic (q : ℕ) : ¬TransGen ForThird q q := by
  intro h
  obtain ⟨p, ⟨hlt, -⟩, -⟩ := TransGen.head'_iff.mp h
  obtain ⟨p', -, -, htwo⟩ := TransGen.tail'_iff.mp h
  omega

/-- The two workers go on after `twoItems`. -/
theorem not_stuck_twoItems :
    ∃ s, Transition.exec step (init (fun _ => true) 2 1) twoItems = some s ∧ ¬Stuck s := by
  obtain ⟨s, hs, hrole, hcall⟩ : ∃ s : State Unit,
      Transition.exec step (init (fun _ => true) 2 1) twoItems = some s ∧
        s.threads[0]?.map Thread.role = some (.running 0 ⟨0, .client ()⟩) ∧
        s.threads[0]?.map Thread.call = some .none := ⟨_, rfl, rfl, rfl⟩
  obtain ⟨th, hth, hrole⟩ := Option.map_eq_some_iff.mp hrole
  rw [hth] at hcall
  refine ⟨s, hs, not_stuck forThird_acyclic _ 2 1 hs (by decide +kernel)
    ⟨0, .inr ⟨th, List.mem_of_getElem? hth, _, hrole⟩⟩ (by decide : 0 < 2) ?_⟩
  rintro ⟨th', q, k, hth', hcall', -⟩
  obtain rfl : th = th' := Option.some_inj.mp (hth.symm.trans hth')
  rw [Option.map_some, hcall'] at hcall
  cases hcall

/-- **Two workers, both in `dispatch_sync_f`** for a third queue, which has two items and nobody to
take them. -/
theorem stuck_pool :
    ¬∀ (R : ℕ → ℕ → Prop) (serial : ℕ → Bool) (n m : ℕ) (as : List (Action Unit))
      (s : State Unit), (∀ q, ¬TransGen R q q) → 2 ≤ n →
        Transition.exec step (init serial n m) as = some s →
        Transition.Along step (Respects R) (init serial n m) as → Pending s → ¬Stuck s := by
  intro hlaw
  obtain ⟨s, hs, hthreads, hrunnable, hsem, hitems⟩ : ∃ s : State Unit,
      Transition.exec step (init (fun _ => true) 2 1) twoWaits = some s ∧
        s.threads = [⟨.running 0 ⟨0, .client ()⟩, .waiting 2 2, some 0⟩,
          ⟨.running 1 ⟨1, .client ()⟩, .waiting 2 3, some 1⟩, clientThread] ∧
        s.runnable = [2] ∧ (s.semaphores 2 = 0 ∧ s.semaphores 3 = 0) ∧
        (s.queues 2).items = [⟨2, .syncTrampoline 2⟩, ⟨3, .syncTrampoline 3⟩] :=
    ⟨_, rfl, rfl, rfl, ⟨rfl, rfl⟩, rfl⟩
  refine hlaw ForThird (fun _ => true) 2 1 twoWaits s forThird_acyclic (Nat.le_refl 2) hs
    (by decide +kernel) ⟨2, .inl (by rw [hitems]; exact nofun)⟩ ?_
  intro a ha
  cases a with
  | async t q f => cases ha
  | sync t q => cases ha
  | runnablePush t => rcases t with _ | _ | _ | t <;> simp [step, hthreads, clientThread]
  | wake t => rcases t with _ | _ | _ | t <;> simp [step, hthreads, hsem, clientThread]
  | pop t => rcases t with _ | _ | _ | t <;> simp [step, hthreads, clientThread]
  | begin t => rcases t with _ | _ | _ | t <;> simp [step, hthreads, clientThread]
  | finish t => rcases t with _ | _ | _ | t <;> simp [step, hthreads, clientThread]
  | drainNext t => rcases t with _ | _ | _ | t <;> simp [step, hthreads, clientThread]

end Asteros.Dispatch
