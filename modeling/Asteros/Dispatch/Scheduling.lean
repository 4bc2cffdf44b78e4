import Asteros.Dispatch.Queue
import Asteros.Lib.Tally
import Mathlib.Data.List.Nodup
import Mathlib.Data.List.Perm.Subperm

set_option autoImplicit false

/-!
# What the flags of a queue promise

`draining` and `on_runnable_list` are set and cleared under the queue's lock, the runnable list
changes under its own, and between the two a node is in the hand of a thread. This file counts the
nodes of a queue wherever they are, and the threads that are in its drain loop: for a serial queue
each count is what its flag says, in every state of every run.

## Main definitions

* `State.nodes`, `State.drains` — the nodes of a queue, on the list and in the hands of threads, and
  the threads with one of its items.
* `Queue.Served` — the flags agree with the counts.
* `Scheduled` — what the clients of the queues rely on.

## Main results

* `Invariant.step` — every step keeps the flags true.
* `scheduling` — serial queues run their items one by one in the order of the pushes, and nothing
  pushed is lost or stranded.
-/

namespace Asteros.Dispatch

open Tally

variable {α : Type}

/-! ## Counting -/

/-- A node of the queue that `runnable_push` has yet to put on the list. -/
def Call.nodes (q : ℕ) : Call → ℕ
  | .pushing p _ => if p = q then 1 else 0
  | .none | .waiting _ _ => 0

/-- A node of the queue that a worker has taken off the list. -/
def Role.nodes (q : ℕ) : Role α → ℕ
  | .popped p => if p = q then 1 else 0
  | .client | .top | .running _ _ | .returned _ => 0

/-- A thread with an item of the queue, or between two of them. -/
def Role.drains (q : ℕ) : Role α → ℕ
  | .running p _ | .returned p => if p = q then 1 else 0
  | .client | .top | .popped _ => 0

/-- The nodes of the queue that the thread has in its hand. -/
def Thread.nodes (q : ℕ) (th : Thread α) : ℕ := th.call.nodes q + th.role.nodes q

/-- Whether the thread has an item of the queue, or is between two of them. -/
def Thread.drains (q : ℕ) (th : Thread α) : ℕ := th.role.drains q

/-- The nodes of a queue, on the list and in the hands of threads. -/
def State.nodes (s : State α) (q : ℕ) : ℕ := s.runnable.count q + tally (Thread.nodes q) s.threads

/-- The threads with an item of a queue, or between two of them. -/
def State.drains (s : State α) (q : ℕ) : ℕ := tally (Thread.drains q) s.threads

/-- The items of one queue in a history. -/
def entriesOf (q : ℕ) (log : List (ℕ × ℕ)) : List ℕ :=
  (log.filter fun e => e.1 = q).map Prod.snd

/-! ## The flags of one queue -/

/-- The flags of a queue agree with the number of its nodes and of the threads in its drain
loop. -/
structure Queue.Served (queue : Queue α) (nodes drains : ℕ) : Prop where
  /-- `on_runnable_list` says whether there is a node. -/
  node : queue.isSerial = true → nodes = queue.onRunnableList.toNat
  /-- `draining` says whether there is a drainer. -/
  drain : queue.isSerial = true → drains = queue.draining.toNat
  /-- A queue that is drained has no node. -/
  apart : queue.isSerial = true → queue.draining = true → queue.onRunnableList = false
  /-- A queue with items has a drainer or a node. -/
  busy : queue.isSerial = true → queue.items ≠ [] →
    queue.draining = true ∨ queue.onRunnableList = true
  /-- A concurrent queue has a node for each item. -/
  concurrent : queue.isSerial = false → queue.items.length ≤ nodes

namespace Queue

variable {queue : Queue α} {n d : ℕ}

/-- A push does not change the kind. -/
@[simp] lemma isSerial_pushItem {item : Item α} :
    (queue.pushItem item).1.isSerial = queue.isSerial := by
  simp only [pushItem]
  split
  · split <;> rfl
  · rfl

/-- A push appends. -/
@[simp] lemma items_pushItem {item : Item α} :
    (queue.pushItem item).1.items = queue.items ++ [item] := by
  simp only [pushItem]
  split
  · split <;> rfl
  · rfl

/-- A drain does not change the kind. -/
@[simp] lemma isSerial_drainNext : queue.drainNext.2.isSerial = queue.isSerial := by
  obtain ⟨isSerial, items, draining, onRunnableList⟩ := queue
  cases items <;> rfl

/-- Nor does taking one item. -/
@[simp] lemma isSerial_popHeadLocked : queue.popHeadLocked.2.isSerial = queue.isSerial := by
  obtain ⟨isSerial, items, draining, onRunnableList⟩ := queue
  cases items <;> rfl

/-- Nor does the work on a node. -/
@[simp] lemma isSerial_begin : queue.begin.2.isSerial = queue.isSerial := by
  rw [begin]
  split
  · simp
  · simp

/-- What a drain takes is the head. -/
lemma items_drainNext (queue : Queue α) :
    queue.items = queue.drainNext.1.toList ++ queue.drainNext.2.items := by
  obtain ⟨isSerial, items, draining, onRunnableList⟩ := queue
  cases items <;> rfl

/-- What is taken is the head. -/
lemma items_popHeadLocked :
    queue.items = queue.popHeadLocked.1.toList ++ queue.popHeadLocked.2.items := by
  obtain ⟨isSerial, items, draining, onRunnableList⟩ := queue
  cases items <;> rfl

/-- What a worker with a node takes is the head. -/
lemma items_begin : queue.items = queue.begin.1.toList ++ queue.begin.2.items := by
  rw [begin]
  split
  · exact items_drainNext { queue with onRunnableList := false, draining := true }
  · exact items_popHeadLocked

/-- A pass of a drain starts no drain. -/
lemma draining_of_drainNext (h : queue.drainNext.2.draining = true) : queue.draining = true := by
  obtain ⟨isSerial, items, draining, onRunnableList⟩ := queue
  cases items with
  | nil => cases h
  | cons item rest => exact h

/-- A push brings a node if it says so. -/
lemma Served.pushItem (h : queue.Served n d) (item : Item α) :
    (queue.pushItem item).1.Served (n + (queue.pushItem item).2.toNat) d := by
  have hnode := h.node
  have hdrain := h.drain
  have hapart := h.apart
  have hbusy := h.busy
  have hconc := h.concurrent
  obtain ⟨isSerial, items, draining, onRunnableList⟩ := queue
  cases isSerial <;> cases draining <;> cases onRunnableList <;>
    constructor <;> simp_all [Queue.pushItem]

/-- The start of a drain or of a concurrent item uses a node up. -/
lemma Served.begin (h : queue.Served (n + 1) d) {d' : ℕ}
    (hd : queue.isSerial = true → d' = d + queue.begin.1.toList.length) :
    queue.begin.2.Served n d' := by
  have hnode := h.node
  have hdrain := h.drain
  have hapart := h.apart
  have hconc := h.concurrent
  obtain ⟨isSerial, items, draining, onRunnableList⟩ := queue
  cases isSerial <;> cases items <;> cases draining <;> cases onRunnableList <;>
    constructor <;> simp_all [Queue.begin, Queue.drainNext, Queue.popHeadLocked]

/-- The next pass of a drain. -/
lemma Served.drainNext (h : queue.Served n (d + 1)) (hserial : queue.isSerial = true) {d' : ℕ}
    (hd : d' = d + queue.drainNext.1.toList.length) : queue.drainNext.2.Served n d' := by
  have hnode := h.node
  have hdrain := h.drain
  have hapart := h.apart
  obtain ⟨isSerial, items, draining, onRunnableList⟩ := queue
  cases items <;> cases draining <;> cases onRunnableList <;>
    constructor <;> simp_all [Queue.drainNext, Queue.popHeadLocked]

/-- Only the drainers of a serial queue are told apart. -/
lemma Served.drains (h : queue.Served n d) {d' : ℕ} (hd : queue.isSerial = true → d' = d) :
    queue.Served n d' where
  node := h.node
  drain hserial := by rw [hd hserial, h.drain hserial]
  apart := h.apart
  busy := h.busy
  concurrent := h.concurrent

end Queue

/-! ## The counts of a state -/

section

variable {s : State α} {t q p : ℕ} {th : Thread α}

/-- A thread moves on. -/
lemma nodes_goto (hth : s.threads[t]? = some th) (th' : Thread α) (p : ℕ) :
    (s.goto t th').nodes p + th.nodes p = s.nodes p + th'.nodes p := by
  have hset := tally_set (w := Thread.nodes p) (b := th') hth
  simp only [State.nodes, State.goto]
  omega

/-- A thread moves on. -/
lemma drains_goto (hth : s.threads[t]? = some th) (th' : Thread α) (p : ℕ) :
    (s.goto t th').drains p + th.drains p = s.drains p + th'.drains p :=
  tally_set hth

/-- The code of a client has nothing in its hand. -/
lemma Thread.call_of_inClient (h : th.inClient = true) : th.call = .none := by
  obtain ⟨role, call, key⟩ := th
  cases call with
  | none => rfl
  | pushing q done => cases role <;> cases h
  | waiting q done => cases role <;> cases h

/-- What a push leaves in the hand. -/
lemma Call.nodes_pushes {shouldPush : Bool} {done : Option ℕ} :
    (th.pushes q shouldPush done).call.nodes p = if q = p then shouldPush.toNat else 0 := by
  cases shouldPush with
  | true => rfl
  | false =>
    cases done with
    | none => simp [Thread.pushes, Call.nodes]
    | some k => simp [Thread.pushes, Call.nodes]

/-- A push leaves the thread where it is. -/
@[simp] lemma role_pushes {shouldPush : Bool} {done : Option ℕ} :
    (th.pushes q shouldPush done).role = th.role := rfl

/-- What a worker got. -/
lemma role_took {isSerial : Bool} {got : Option (Item α)} :
    (th.took q isSerial got).role =
      match got with
      | none => .top
      | some item => .running q item := by
  cases got <;> rfl

/-- A worker that got something has no node in its hand. -/
lemma Role.nodes_took {isSerial : Bool} {got : Option (Item α)} :
    (th.took q isSerial got).role.nodes p = 0 := by
  cases got <;> rfl

/-- A worker that got something drains the queue. -/
lemma Role.drains_took {isSerial : Bool} {got : Option (Item α)} :
    (th.took q isSerial got).role.drains p = if q = p then got.toList.length else 0 := by
  cases got with
  | none => simp [Thread.took, Role.drains]
  | some item => simp [Thread.took, Role.drains]

/-- A worker that got something is in no call that it was not in. -/
@[simp] lemma call_took {isSerial : Bool} {got : Option (Item α)} :
    (th.took q isSerial got).call = th.call := by
  cases got <;> rfl

end

/-! ## The invariant -/

/-- The flags of every queue, and what its history says of its items. -/
structure Invariant (s : State α) : Prop where
  /-- The flags of every queue. -/
  served : ∀ q, (s.queues q).Served (s.nodes q) (s.drains q)
  /-- What was pushed to a queue was started, or is on the queue. -/
  history : ∀ q, entriesOf q s.pushed = entriesOf q s.started ++ (s.queues q).items.map Item.id
  /-- The numbers of the items. -/
  fresh : ∀ e ∈ s.pushed, e.2 < s.nextItem
  /-- Items are told apart by their numbers. -/
  distinct : (s.pushed.map Prod.snd).Nodup

/-- What was pushed or started last. -/
lemma entriesOf_append {q : ℕ} {log log' : List (ℕ × ℕ)} :
    entriesOf q (log ++ log') = entriesOf q log ++ entriesOf q log' := by
  simp only [entriesOf, List.filter_append, List.map_append]

/-- At first. -/
lemma Invariant.init (serial : ℕ → Bool) (n m : ℕ) : Invariant (init serial n m : State α) where
  served q := by
    have hnodes : (Dispatch.init serial n m : State α).nodes q = 0 := by
      rw [State.nodes, tally_eq_zero]
      · rfl
      · intro th hth
        rcases List.mem_append.mp hth with hth | hth
        · rw [List.eq_of_mem_replicate hth]; rfl
        · rw [List.eq_of_mem_replicate hth]; rfl
    have hdrains : (Dispatch.init serial n m : State α).drains q = 0 := by
      rw [State.drains, tally_eq_zero]
      intro th hth
      rcases List.mem_append.mp hth with hth | hth
      · rw [List.eq_of_mem_replicate hth]; rfl
      · rw [List.eq_of_mem_replicate hth]; rfl
    rw [hnodes, hdrains]
    exact ⟨fun _ => rfl, fun _ => rfl, fun _ h => rfl, fun _ h => absurd rfl h,
      fun _ => Nat.zero_le _⟩
  history q := rfl
  fresh e he := absurd he List.not_mem_nil
  distinct := List.nodup_nil

section

variable {s s' : State α} {t q : ℕ} {th : Thread α}

/-- A push by the code of a client. -/
lemma Invariant.pushed (h : Invariant s) (hth : s.threads[t]? = some th) (hin : th.inClient = true)
    (func : Func α) (done : Option ℕ) :
    Invariant ((s.pushItem q func).1.goto t (th.pushes q (s.pushItem q func).2 done)) := by
  have hcall : ∀ p, th.call.nodes p = 0 := by
    intro p
    rw [Thread.call_of_inClient hin]
    rfl
  constructor
  · intro p
    have hnodes := nodes_goto (s := (s.pushItem q func).1) hth
      (th.pushes q (s.pushItem q func).2 done) p
    have hdrains := drains_goto (s := (s.pushItem q func).1) hth
      (th.pushes q (s.pushItem q func).2 done) p
    have hnodes' : (s.pushItem q func).1.nodes p = s.nodes p := rfl
    have hdrains' : (s.pushItem q func).1.drains p = s.drains p := rfl
    simp only [Thread.nodes, Thread.drains, Call.nodes_pushes, role_pushes, hcall] at hnodes hdrains
    by_cases hp : q = p
    · subst hp
      have hserved := (h.served q).pushItem ⟨s.nextItem, func⟩
      have hq : ((s.pushItem q func).1.goto t
          (th.pushes q (s.pushItem q func).2 done)).queues q =
          ((s.queues q).pushItem ⟨s.nextItem, func⟩).1 := Function.update_self ..
      have hshould : (s.pushItem q func).2 = ((s.queues q).pushItem ⟨s.nextItem, func⟩).2 := rfl
      rw [if_pos rfl] at hnodes
      rw [hq, show ((s.pushItem q func).1.goto t (th.pushes q (s.pushItem q func).2 done)).nodes q =
        s.nodes q + (s.pushItem q func).2.toNat by omega]
      exact hserved.drains fun _ => by omega
    · have hq : ((s.pushItem q func).1.goto t
          (th.pushes q (s.pushItem q func).2 done)).queues p = s.queues p :=
        Function.update_of_ne (fun hpq => hp hpq.symm) ..
      rw [if_neg hp] at hnodes
      rw [hq, show ((s.pushItem q func).1.goto t
        (th.pushes q (s.pushItem q func).2 done)).nodes p = s.nodes p by omega]
      exact (h.served p).drains fun _ => by omega
  · intro p
    have hpushed : entriesOf p ((s.pushed ++ [(q, s.nextItem)])) =
        entriesOf p s.pushed ++ if q = p then [s.nextItem] else [] := by
      rw [entriesOf_append]
      by_cases hp : q = p <;> simp [entriesOf, hp]
    change entriesOf p (s.pushed ++ [(q, s.nextItem)]) = entriesOf p s.started ++ _
    rw [hpushed, h.history p]
    by_cases hp : q = p
    · subst hp
      simp [State.pushItem, State.setQueue, State.goto]
    · simp [State.pushItem, State.setQueue, State.goto, hp, Function.update_of_ne (Ne.symm hp)]
  · intro e he
    change e.2 < s.nextItem + 1
    rcases List.mem_append.mp he with he | he
    · exact Nat.lt_succ_of_lt (h.fresh e he)
    · rw [List.mem_singleton.mp he]
      exact Nat.lt_succ_self _
  · change ((s.pushed ++ [(q, s.nextItem)]).map Prod.snd).Nodup
    rw [List.map_append, List.nodup_append]
    refine ⟨h.distinct, List.nodup_singleton _, ?_⟩
    rintro a ha b hb rfl
    obtain ⟨e, he, rfl⟩ := List.mem_map.mp ha
    rw [List.map_singleton, List.mem_singleton] at hb
    exact absurd (h.fresh e he) (by rw [hb]; exact Nat.lt_irrefl _)

/-- A queue changes and keeps its kind. -/
lemma isSerial_setQueue {queue : Queue α} (hqueue : queue.isSerial = (s.queues q).isSerial)
    (p : ℕ) : ((s.setQueue q queue).queues p).isSerial = (s.queues p).isSerial := by
  by_cases hp : p = q
  · subst hp
    simp [State.setQueue, hqueue]
  · simp [State.setQueue, Function.update_of_ne hp]

/-- The kind of a queue stays. -/
lemma isSerial_step {a : Action α} (hs : Step s a s') (p : ℕ) :
    (s'.queues p).isSerial = (s.queues p).isSerial := by
  have hsignal : ∀ func : Func α, (s.signal func).queues = s.queues := by
    intro func
    cases func <;> rfl
  cases hs with
  | async hth hin => exact isSerial_setQueue Queue.isSerial_pushItem p
  | sync hth hin hkey => exact isSerial_setQueue Queue.isSerial_pushItem p
  | runnablePush hth hcall => rfl
  | wake hth hcall hpos => rfl
  | pop hth hrole hrun => rfl
  | begin hth hrole => exact isSerial_setQueue Queue.isSerial_begin p
  | finishSerial hth hrole hcall hserial => exact congrArg (fun f => (f p).isSerial) (hsignal _)
  | finishConcurrent hth hrole hcall hserial => exact congrArg (fun f => (f p).isSerial) (hsignal _)
  | drainNext hth hrole => exact isSerial_setQueue Queue.isSerial_drainNext p

/-- What was started stays in the history. -/
lemma started_step {a : Action α} (hs : Step s a s') : s.started ⊆ s'.started := by
  have hsignal : ∀ func : Func α, (s.signal func).started = s.started := by
    intro func
    cases func <;> rfl
  cases hs with
  | async hth hin => exact List.Subset.refl _
  | sync hth hin hkey => exact List.Subset.refl _
  | runnablePush hth hcall => exact List.Subset.refl _
  | wake hth hcall hpos => exact List.Subset.refl _
  | pop hth hrole hrun => exact List.Subset.refl _
  | begin hth hrole => exact List.subset_append_left _ _
  | finishSerial hth hrole hcall hserial => exact (hsignal _).symm ▸ List.Subset.refl _
  | finishConcurrent hth hrole hcall hserial => exact (hsignal _).symm ▸ List.Subset.refl _
  | drainNext hth hrole => exact List.subset_append_left _ _

/-- What a thread in a call or with an item does outside of it. -/
structure Thread.Placed (s : State α) (th : Thread α) : Prop where
  /-- Only the code of a client makes calls. -/
  called : th.call ≠ .none → th.role = .client ∨ ∃ q item, th.role = .running q item
  /-- Only a serial queue is locked again. -/
  returned : ∀ q, th.role = .returned q → (s.queues q).isSerial = true
  /-- An item that is run was taken off its queue. -/
  running : ∀ q item, th.role = .running q item → (q, item.id) ∈ s.started

/-- A worker that is not in an item is in no call. -/
lemma Thread.Placed.call_eq (h : th.Placed s) (hclient : th.role ≠ .client)
    (hrunning : ∀ q item, th.role ≠ .running q item) : th.call = .none := by
  by_contra hcall
  rcases h.called hcall with hrole | ⟨q, item, hrole⟩
  · exact hclient hrole
  · exact hrunning q item hrole

/-- The code of a client is in a thread of it or in an item. -/
lemma Thread.role_of_inClient (h : th.inClient = true) :
    th.role = .client ∨ ∃ q item, th.role = .running q item := by
  obtain ⟨role, call, key⟩ := th
  cases role with
  | client => exact .inl rfl
  | running q item => exact .inr ⟨q, item, rfl⟩
  | top => cases call <;> cases h
  | popped q => cases call <;> cases h
  | returned q => cases call <;> cases h

/-- The threads of a state in which one has moved on. -/
lemma threads_goto {th' x : Thread α} {i : ℕ} (hx : (s.goto t th').threads[i]? = some x) :
    (i = t ∧ x = th') ∨ (i ≠ t ∧ s.threads[i]? = some x) := by
  have hset : (s.threads.set t th')[i]? = some x := hx
  rw [List.getElem?_set] at hset
  by_cases hi : t = i
  · subst hi
    rw [if_pos rfl] at hset
    split at hset
    · exact .inl ⟨rfl, (Option.some_inj.mp hset).symm⟩
    · cases hset
  · rw [if_neg hi] at hset
    exact .inr ⟨fun h => hi h.symm, hset⟩

/-- A worker that got something, or nothing. -/
lemma Thread.Placed.took {got : Option (Item α) × Queue α} (hcall : th.call = .none) :
    (th.took q (s.queues q).isSerial got.1).Placed (s.take t th q got) where
  called hne := absurd hcall (by rwa [call_took] at hne)
  returned p hp := by
    rw [role_took] at hp
    split at hp <;> cases hp
  running p item hp := by
    rw [role_took] at hp
    split at hp
    · cases hp
    · next item' hgot =>
      cases hp
      simp [State.take, hgot]

/-- Every thread stays placed. -/
lemma Placed.of_step (h : ∀ (i : ℕ) (x : Thread α), s.threads[i]? = some x → x.Placed s)
    {a : Action α} (hs : Step s a s') :
    ∀ (i : ℕ) (x : Thread α), s'.threads[i]? = some x → x.Placed s' := by
  have hold : ∀ y : Thread α, y.Placed s → y.Placed s' := fun y hy =>
    ⟨hy.called, fun q hq => by rw [isSerial_step hs]; exact hy.returned q hq,
      fun q item hq => started_step hs (hy.running q item hq)⟩
  have hmoved : ∀ (r : State α) (t : ℕ) (th' : Thread α), r.threads = s.threads →
      s'.threads = (r.goto t th').threads → th'.Placed s' →
      ∀ (i : ℕ) (x : Thread α), s'.threads[i]? = some x → x.Placed s' := by
    intro r t th' hr hs' hth' i x hx
    rw [hs'] at hx
    rcases threads_goto hx with ⟨-, rfl⟩ | ⟨-, hx⟩
    · exact hth'
    · exact hold _ (h i x (by rw [← hr]; exact hx))
  have hsignal : ∀ func : Func α, (s.signal func).threads = s.threads := by
    intro func
    cases func <;> rfl
  cases hs with
  | @async t q f th hth hin =>
    have hth' := h t th hth
    have hrole := Thread.role_of_inClient hin
    exact hmoved (s.pushItem q (.client f)).1 t _ rfl rfl (hold _
      ⟨fun _ => hrole, hth'.returned, hth'.running⟩)
  | @sync t q th hth hin hkey =>
    have hth' := h t th hth
    have hrole := Thread.role_of_inClient hin
    exact hmoved (s.pushItem q _).1 t _ rfl rfl (hold _
      ⟨fun _ => hrole, hth'.returned, hth'.running⟩)
  | @runnablePush t q done th hth hcall =>
    have hth' := h t th hth
    exact hmoved { s with runnable := s.runnable ++ [q] } t _ rfl rfl (hold _
      ⟨fun _ => hth'.called (by rw [hcall]; exact nofun), hth'.returned, hth'.running⟩)
  | @wake t q k th hth hcall hpos =>
    have hth' := h t th hth
    exact hmoved { s with semaphores := _ } t _ rfl rfl (hold _
      ⟨fun hne => absurd rfl hne, hth'.returned, hth'.running⟩)
  | @pop t q rest th hth hrole hrun =>
    have hcall := (h t th hth).call_eq (by rw [hrole]; exact nofun)
      (fun q item => by rw [hrole]; exact nofun)
    exact hmoved { s with runnable := rest } t _ rfl rfl (hold _
      ⟨fun hne => absurd hcall hne, nofun, nofun⟩)
  | @begin t q th hth hrole =>
    have hcall := (h t th hth).call_eq (by rw [hrole]; exact nofun)
      (fun q item => by rw [hrole]; exact nofun)
    exact hmoved (s.setQueue q _) t _ rfl rfl (Thread.Placed.took hcall)
  | @finishSerial t q item th hth hrole hcall hserial =>
    refine hmoved (s.signal item.func) t _ (hsignal _) rfl (hold _
      ⟨fun hne => absurd hcall hne, fun p hp => ?_, nofun⟩)
    cases hp
    exact hserial
  | @finishConcurrent t q item th hth hrole hcall hserial =>
    exact hmoved (s.signal item.func) t _ (hsignal _) rfl (hold _
      ⟨fun hne => absurd hcall hne, nofun, nofun⟩)
  | @drainNext t q th hth hrole =>
    have hcall := (h t th hth).call_eq (by rw [hrole]; exact nofun)
      (fun q item => by rw [hrole]; exact nofun)
    exact hmoved (s.setQueue q _) t _ rfl rfl (Thread.Placed.took hcall)

/-- A step that changes no queue, and no count that a flag speaks of. -/
lemma Invariant.stay (h : Invariant s) (hqueues : s'.queues = s.queues)
    (hpushed : s'.pushed = s.pushed) (hstarted : s'.started = s.started)
    (hnext : s'.nextItem = s.nextItem) (hnodes : ∀ p, s'.nodes p = s.nodes p)
    (hdrains : ∀ p, (s.queues p).isSerial = true → s'.drains p = s.drains p) : Invariant s' where
  served p := by
    rw [hqueues, hnodes]
    exact (h.served p).drains (hdrains p)
  history p := by rw [hpushed, hstarted, hqueues, h.history]
  fresh := by rw [hpushed, hnext]; exact h.fresh
  distinct := by rw [hpushed]; exact h.distinct

/-- A worker that takes something from a queue gives up the node in its hand. -/
lemma nodes_take (hth : s.threads[t]? = some th) (got : Option (Item α) × Queue α) (p : ℕ) :
    (s.take t th q got).nodes p + th.role.nodes p = s.nodes p := by
  have hnodes := nodes_goto hth (th.took q (s.queues q).isSerial got.1) p
  have hsame : (s.take t th q got).nodes p =
      (s.goto t (th.took q (s.queues q).isSerial got.1)).nodes p := rfl
  simp only [Thread.nodes, Role.nodes_took, call_took] at hnodes
  omega

/-- What it takes it drains. -/
lemma drains_take (hth : s.threads[t]? = some th) (got : Option (Item α) × Queue α) (p : ℕ) :
    (s.take t th q got).drains p + th.role.drains p =
      s.drains p + if q = p then got.1.toList.length else 0 := by
  have hdrains := drains_goto hth (th.took q (s.queues q).isSerial got.1) p
  have hsame : (s.take t th q got).drains p =
      (s.goto t (th.took q (s.queues q).isSerial got.1)).drains p := rfl
  simp only [Thread.drains, Role.drains_took] at hdrains
  omega

/-- A worker takes the head of a queue, or finds the queue empty. -/
lemma Invariant.taken (h : Invariant s) (hth : s.threads[t]? = some th)
    {got : Option (Item α) × Queue α}
    (hitems : (s.queues q).items = got.1.toList ++ got.2.items)
    (hserved : got.2.Served ((s.take t th q got).nodes q) ((s.take t th q got).drains q))
    (hrole : ∀ p, p ≠ q → th.role.nodes p = 0 ∧ th.role.drains p = 0) :
    Invariant (s.take t th q got) where
  served p := by
    by_cases hp : p = q
    · subst hp
      have hq : (s.take t th p got).queues p = got.2 := Function.update_self ..
      rw [hq]
      exact hserved
    · have hq : (s.take t th q got).queues p = s.queues p := Function.update_of_ne hp ..
      have hnodes := nodes_take (q := q) hth got p
      have hdrains := drains_take (q := q) hth got p
      obtain ⟨hn, hd⟩ := hrole p hp
      rw [if_neg (Ne.symm hp)] at hdrains
      rw [hq, show (s.take t th q got).nodes p = s.nodes p by omega]
      exact (h.served p).drains fun _ => by omega
  history p := by
    have hstarted : (s.take t th q got).started =
        s.started ++ (got.1.map fun item => (q, item.id)).toList := rfl
    have hlog : entriesOf p ((got.1.map fun item => (q, item.id)).toList) =
        if q = p then got.1.toList.map Item.id else [] := by
      by_cases hp : q = p <;> cases got.1 <;> simp [entriesOf, hp]
    have hpushed : (s.take t th q got).pushed = s.pushed := rfl
    rw [hstarted, entriesOf_append, hlog, hpushed, h.history p]
    by_cases hp : q = p
    · subst hp
      have hq : (s.take t th q got).queues q = got.2 := Function.update_self ..
      rw [hq, hitems, if_pos rfl, List.map_append, List.append_assoc]
    · have hq : (s.take t th q got).queues p = s.queues p :=
        Function.update_of_ne (Ne.symm hp) ..
      rw [hq, if_neg hp, List.append_nil]
  fresh := h.fresh
  distinct := h.distinct

/-- A node goes onto the list. -/
lemma nodes_runnablePush {done : Option ℕ} (hth : s.threads[t]? = some th)
    (hcall : th.call = .pushing q done) (p : ℕ) :
    ({ s with runnable := s.runnable ++ [q] }.goto t (th.pushes q false done)).nodes p =
      s.nodes p := by
  have hnodes := nodes_goto (s := { s with runnable := s.runnable ++ [q] }) hth
    (th.pushes q false done) p
  have hlist : ({ s with runnable := s.runnable ++ [q] } : State α).nodes p =
      s.nodes p + if q = p then 1 else 0 := by
    simp only [State.nodes, List.count_append, List.count_singleton, beq_iff_eq]
    omega
  have hhand : th.nodes p = (if q = p then 1 else 0) + th.role.nodes p := by
    rw [Thread.nodes, hcall, Call.nodes]
  simp only [Thread.nodes, Call.nodes_pushes, role_pushes, Bool.toNat_false, ite_self,
    hlist] at hnodes hhand
  omega

/-- The end of a wait moves no node. -/
lemma nodes_wake {k : ℕ} (hth : s.threads[t]? = some th) (hcall : th.call = .waiting q k)
    (semaphores : ℕ → ℕ) (p : ℕ) :
    ({ s with semaphores := semaphores }.goto t { th with call := .none }).nodes p =
      s.nodes p := by
  refine congrArg (s.runnable.count p + ·) (tally_set_same hth ?_)
  rw [Thread.nodes, Thread.nodes, hcall]
  rfl

/-- A node goes off the list. -/
lemma nodes_pop {rest : List ℕ} (hth : s.threads[t]? = some th) (hrole : th.role = .top)
    (hrun : s.runnable = q :: rest) (p : ℕ) :
    ({ s with runnable := rest }.goto t { th with role := .popped q }).nodes p = s.nodes p := by
  have hnodes := nodes_goto (s := { s with runnable := rest }) hth { th with role := .popped q } p
  have hlist : s.nodes p = ({ s with runnable := rest } : State α).nodes p +
      if q = p then 1 else 0 := by
    simp only [State.nodes, hrun, List.count_cons, beq_iff_eq]
    omega
  simp only [Thread.nodes, hrole, Role.nodes] at hnodes
  omega

/-- The end of an item moves no node. -/
lemma nodes_finish {item : Item α} (hth : s.threads[t]? = some th)
    (hrole : th.role = .running q item) (th' : Thread α) (hcall' : th'.call = th.call)
    (hrole' : ∀ p, th'.role.nodes p = 0) (p : ℕ) :
    ((s.signal item.func).goto t th').nodes p = s.nodes p := by
  have hrun : ((s.signal item.func).goto t th').runnable = s.runnable := by
    cases item.func <;> rfl
  have hthreads : ((s.signal item.func).goto t th').threads = s.threads.set t th' := by
    cases item.func <;> rfl
  rw [State.nodes, hrun, hthreads, tally_set_same hth, State.nodes]
  rw [Thread.nodes, Thread.nodes, hcall', hrole', hrole]
  rfl

/-- The end of an item of another queue. -/
lemma drains_finish {item : Item α} {th' : Thread α} (hth : s.threads[t]? = some th) (p : ℕ)
    (hdrains : th'.role.drains p = th.role.drains p) :
    ((s.signal item.func).goto t th').drains p = s.drains p := by
  have hthreads : ((s.signal item.func).goto t th').threads = s.threads.set t th' := by
    cases item.func <;> rfl
  rw [State.drains, hthreads]
  exact tally_set_same hth hdrains

/-- **Every step keeps the flags true.**

**Proof sketch.** A push raises the flag when it leaves its thread with a node; on the way to the
list, over it and into the hand of a worker the node is counted once. The worker that begins with a
serial queue gives the node up under the lock that lowers the flag, and is the one drainer from
there on; a drainer lowers `draining` only when it finds no item. -/
theorem Invariant.step (h : Invariant s)
    (hplaced : ∀ (i : ℕ) (x : Thread α), s.threads[i]? = some x → x.Placed s) {a : Action α}
    (hs : Step s a s') : Invariant s' := by
  cases hs with
  | async hth hin => exact h.pushed hth hin _ _
  | sync hth hin hkey => exact h.pushed hth hin _ _
  | runnablePush hth hcall =>
    exact h.stay rfl rfl rfl rfl (nodes_runnablePush hth hcall) fun p _ => tally_set_same hth rfl
  | wake hth hcall hpos =>
    exact h.stay rfl rfl rfl rfl (nodes_wake hth hcall _) fun p _ => tally_set_same hth rfl
  | pop hth hrole hrun =>
    refine h.stay rfl rfl rfl rfl (nodes_pop hth hrole hrun) fun p _ => tally_set_same hth ?_
    rw [Thread.drains, Thread.drains, hrole]
    rfl
  | @begin t q th hth hrole =>
    have hnodes := nodes_take (q := q) hth (s.queues q).begin q
    have hdrains := drains_take (q := q) hth (s.queues q).begin q
    simp only [hrole, Role.nodes, Role.drains, if_pos] at hnodes hdrains
    refine h.taken hth Queue.items_begin (Queue.Served.begin ?_ fun _ => hdrains) ?_
    · rw [hnodes]
      exact h.served q
    · intro p hp
      simp [hrole, Role.nodes, Role.drains, Ne.symm hp]
  | @finishSerial t q item th hth hrole hcall hserial =>
    refine h.stay (by cases item.func <;> rfl) (by cases item.func <;> rfl)
      (by cases item.func <;> rfl) (by cases item.func <;> rfl)
      (nodes_finish hth hrole _ rfl fun _ => rfl) fun p _ => drains_finish hth p ?_
    rw [hrole]
    rfl
  | @finishConcurrent t q item th hth hrole hcall hserial =>
    refine h.stay (by cases item.func <;> rfl) (by cases item.func <;> rfl)
      (by cases item.func <;> rfl) (by cases item.func <;> rfl)
      (nodes_finish hth hrole _ rfl fun _ => rfl) fun p hp => drains_finish hth p ?_
    have hne : q ≠ p := by
      rintro rfl
      rw [hserial] at hp
      cases hp
    simp [hrole, Role.drains, hne]
  | @drainNext t q th hth hrole =>
    have hnodes := nodes_take (q := q) hth (s.queues q).drainNext q
    have hdrains := drains_take (q := q) hth (s.queues q).drainNext q
    simp only [hrole, Role.nodes, Role.drains, if_pos] at hnodes hdrains
    have hserial := (hplaced t th hth).returned q hrole
    have hbefore := h.served q
    have hone : Thread.drains q th ≤ s.drains q := le_tally hth
    rw [Thread.drains, hrole, Role.drains, if_pos rfl] at hone
    rw [show s.drains q = (s.drains q - 1) + 1 by omega, ← hnodes] at hbefore
    refine h.taken hth (Queue.items_drainNext _) (hbefore.drainNext hserial (by omega)) ?_
    intro p hp
    simp [hrole, Role.nodes, Role.drains, Ne.symm hp]

/-- What holds in every state of every run. -/
lemma Invariant.of_exec {serial : ℕ → Bool} {n m : ℕ} {as : List (Action α)}
    (h : Transition.exec Dispatch.step (Dispatch.init serial n m) as = some s) :
    Invariant s ∧ (∀ (i : ℕ) (x : Thread α), s.threads[i]? = some x → x.Placed s) ∧
      ∀ q, (s.queues q).isSerial = serial q := by
  refine Transition.invariant (P := fun s => Invariant s ∧
    (∀ (i : ℕ) (x : Thread α), s.threads[i]? = some x → x.Placed s) ∧
      ∀ q, (s.queues q).isSerial = serial q) ?_ ?_ h
  · rintro r a r' ⟨hr, hplaced, hserial⟩ hstep
    have hs := Step.of_step hstep
    exact ⟨hr.step hplaced hs, Placed.of_step hplaced hs,
      fun q => (isSerial_step hs q).trans (hserial q)⟩
  · refine ⟨.init serial n m, fun i x hx => ?_, fun q => rfl⟩
    have hx : x = worker ∨ x = clientThread := by
      rcases List.mem_append.mp (List.mem_of_getElem? hx) with hx | hx
      · exact .inl (List.eq_of_mem_replicate hx)
      · exact .inr (List.eq_of_mem_replicate hx)
    rcases hx with rfl | rfl
    · exact ⟨fun hne => absurd rfl hne, nofun, nofun⟩
    · exact ⟨fun hne => absurd rfl hne, nofun, nofun⟩

/-! ## What clients rely on -/

/-- A thread is running an item of the queue. -/
def Thread.Runs (th : Thread α) (q : ℕ) : Prop := ∃ item, th.role = .running q item

/-- A thread has a node of the queue in its hand: it is before the `runnable_push` of its push, or
behind `runnable_pop_blocking`. -/
def Thread.Holds (th : Thread α) (q : ℕ) : Prop :=
  (∃ done, th.call = .pushing q done) ∨ th.role = .popped q

/-- What the clients of the queues rely on. -/
structure Scheduled (s : State α) : Prop where
  /-- Each item is taken off its queue to be run at most once. -/
  once : (s.started.map Prod.snd).Nodup
  /-- A thread runs an item that was taken off its queue. -/
  running : ∀ th ∈ s.threads, ∀ q item, th.role = .running q item → (q, item.id) ∈ s.started
  /-- Nothing is lost and nothing else is run, and items are taken in push order: what was pushed to
  a queue is what was started of it, and then the items it has. -/
  inOrder : ∀ q, entriesOf q s.pushed =
    entriesOf q s.started ++ (s.queues q).items.map Item.id
  /-- No two items of a serial queue are run at the same time. -/
  alone : ∀ q, (s.queues q).isSerial = true → ∀ (i j : ℕ) (x y : Thread α),
    s.threads[i]? = some x → s.threads[j]? = some y → x.Runs q → y.Runs q → i = j
  /-- A serial queue has at most one node on the list. -/
  oneNode : ∀ q, (s.queues q).isSerial = true → s.runnable.count q ≤ 1
  /-- A serial queue with items is drained by a thread, or has a node on the list or in a hand. -/
  served : ∀ q, (s.queues q).isSerial = true → (s.queues q).items ≠ [] →
    ((s.queues q).draining = true ∧ ∃ th ∈ s.threads, th.Runs q ∨ th.role = .returned q) ∨
      q ∈ s.runnable ∨ ∃ th ∈ s.threads, th.Holds q
  /-- A concurrent queue has as many nodes, on the list and in hands, as items. -/
  outstanding : ∀ q, (s.queues q).isSerial = false → (s.queues q).items.length ≤ s.nodes q

/-- How often an item of one queue is in a history. -/
lemma count_entriesOf {k : ℕ} {log : List (ℕ × ℕ)} :
    (entriesOf q log).count k = log.count (q, k) := by
  induction log with
  | nil => rfl
  | cons e log ih =>
    obtain ⟨p, j⟩ := e
    have hcons : entriesOf q ((p, j) :: log) =
        (if p = q then [j] else []) ++ entriesOf q log := by
      by_cases hp : p = q <;> simp [entriesOf, hp]
    rw [hcons, List.count_append, ih, List.count_cons, Nat.add_comm]
    by_cases hp : p = q <;> simp [hp, List.count_singleton]

/-- What was started is part of what was pushed. -/
lemma Invariant.subperm (h : Invariant s) : s.started.Subperm s.pushed := by
  refine List.subperm_ext_iff.mpr fun e _ => ?_
  obtain ⟨q, k⟩ := e
  rw [← count_entriesOf, ← count_entriesOf, h.history q, List.count_append]
  exact Nat.le_add_right _ _

/-- A weight of 1 under a condition. -/
lemma one_of_pos {p : Prop} [Decidable p] : 0 < (if p then 1 else 0) ↔ p := by
  split <;> simp_all

/-- A thread that counts as a drainer. -/
lemma Thread.drains_pos : 0 < th.drains q ↔ th.Runs q ∨ th.role = .returned q := by
  obtain ⟨role, call, key⟩ := th
  cases role <;> simp [Thread.drains, Role.drains, Thread.Runs, one_of_pos]

/-- A thread with a node. -/
lemma Thread.nodes_pos : 0 < th.nodes q ↔ th.Holds q := by
  obtain ⟨role, call, key⟩ := th
  cases role <;> cases call <;>
    simp [Thread.nodes, Role.nodes, Call.nodes, Thread.Holds, Nat.add_pos_iff_pos_or_pos,
      one_of_pos]

/-- **Scheduling.** With any number of workers and any number of threads that push, in every state
of every run: an item is started at most once; the items pushed to a queue are those that were
started of it and those that it has, in push order, so that none is lost and none is started that was
not pushed; never two items of a serial queue are run at the same time; a serial queue has at most
one node on the runnable list; if it has items, a thread is draining it, or a node of it is on the
list or on the way to or from it; and a concurrent queue has a node for each of its items.

**Proof sketch.** The flags of a queue count its nodes and its drainers, and its items are what is
left of its history, by induction on the run. A flag is at most 1, and one of the two is up while
there are items. -/
theorem scheduling (serial : ℕ → Bool) (n m : ℕ) (as : List (Action α))
    (h : Transition.exec step (init serial n m) as = some s) : Scheduled s := by
  obtain ⟨hinv, hplaced, -⟩ := Invariant.of_exec h
  have hnode : ∀ q, (s.queues q).isSerial = true → s.nodes q ≤ 1 := fun q hserial => by
    rw [(hinv.served q).node hserial]
    exact Bool.toNat_le _
  have hdrain : ∀ q, (s.queues q).isSerial = true → s.drains q ≤ 1 := fun q hserial => by
    rw [(hinv.served q).drain hserial]
    exact Bool.toNat_le _
  constructor
  · obtain ⟨l, hperm, hsub⟩ := hinv.subperm
    exact (hperm.map Prod.snd).nodup (hinv.distinct.sublist (hsub.map Prod.snd))
  · intro th hth q item hrole
    obtain ⟨i, hi⟩ := List.getElem?_of_mem hth
    exact (hplaced i th hi).running q item hrole
  · exact hinv.history
  · intro q hserial i j x y hx hy hrunx hruny
    exact eq_of_tally_le_one (hdrain q hserial) hx hy (Thread.drains_pos.2 (.inl hrunx))
      (Thread.drains_pos.2 (.inl hruny))
  · intro q hserial
    exact Nat.le_trans (Nat.le_add_right _ _) (hnode q hserial)
  · intro q hserial hitems
    rcases (hinv.served q).busy hserial hitems with hflag | hflag
    · have hone : 0 < s.drains q := by
        rw [(hinv.served q).drain hserial, hflag]
        exact Nat.one_pos
      obtain ⟨i, th, hi, hpos⟩ := tally_pos.mp hone
      exact .inl ⟨hflag, th, List.mem_of_getElem? hi, Thread.drains_pos.1 hpos⟩
    · have hone : 0 < s.nodes q := by
        rw [(hinv.served q).node hserial, hflag]
        exact Nat.one_pos
      rw [State.nodes] at hone
      by_cases hlist : 0 < s.runnable.count q
      · exact .inr (.inl (List.count_pos_iff.mp hlist))
      · obtain ⟨i, th, hi, hpos⟩ := tally_pos.mp (by omega : 0 < tally (Thread.nodes q) s.threads)
        exact .inr (.inr ⟨th, List.mem_of_getElem? hi, Thread.nodes_pos.1 hpos⟩)
  · exact fun q hserial => (hinv.served q).concurrent hserial

end

/-- Two threads push to one serial queue, one of them while a worker drains it. -/
theorem scheduling_two_threads :
    ∃ s : State Unit, Transition.exec step (init (fun _ => true) 2 2)
      [.async 2 0 (), .async 3 0 (), .runnablePush 2, .pop 1, .begin 1, .async 3 0 (),
        .finish 1, .drainNext 1] = some s ∧ s.started = [(0, 0), (0, 1)] ∧ Scheduled s := by
  obtain ⟨s, hs, hstarted⟩ : ∃ s : State Unit, Transition.exec step (init (fun _ => true) 2 2)
      [.async 2 0 (), .async 3 0 (), .runnablePush 2, .pop 1, .begin 1, .async 3 0 (),
        .finish 1, .drainNext 1] = some s ∧ s.started = [(0, 0), (0, 1)] := ⟨_, rfl, rfl⟩
  exact ⟨s, hs, hstarted, scheduling _ _ _ _ hs⟩

end Asteros.Dispatch
