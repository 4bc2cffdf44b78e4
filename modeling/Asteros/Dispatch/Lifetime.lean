import Asteros.Dispatch.Group
import Asteros.Dispatch.Scheduling

set_option autoImplicit false

/-!
# The lifetime of dispatch objects

Queues and groups begin with a reference count of 1, the creator's, and are destroyed by the
`dispatch_release` that brings it to 0 (`dispatch_object.c`). No other part of the library retains
or releases: neither an item nor a runnable node, neither a drain, a timer, a notify nor the
context of a `dispatch_group_async` holds a reference to the queue or the group it names.

The process is the pool of `dispatch_queue.c`, any number of groups, the list of timers with its
thread, and the clients' threads. A client uses an object only while it has a reference to it.

## Main definitions

* `Process`, `Process.step` — the process.
* `Process.Busy` — there is pending work that names the object.
* `Process.Idle` — the condition on a release.

## Main results

* `Process.outlives` — no destroyed object is busy in the runs in which no busy object is released
  for the last time, and in no others.
* `Process.not_outlives_sync` — the creator of a queue releases it after its `dispatch_sync` while a
  worker is in the drain loop.
-/

namespace Asteros.Dispatch

open Tally

/-! ## What keeps a queue of the pool busy -/

section

variable {α : Type} {s s' : State α}

/-- The queue has items, or a node, or is being drained. -/
def State.BusyQueue (s : State α) (q : ℕ) : Prop :=
  (s.queues q).items ≠ [] ∨ 0 < s.nodes q ∨ (s.queues q).draining = true

instance (s : State α) (q : ℕ) : Decidable (s.BusyQueue q) :=
  decidable_of_iff ((s.queues q).items.isEmpty = false ∨ 0 < s.nodes q ∨
    (s.queues q).draining = true) (by simp [State.BusyQueue])

/-- The queue that is pushed to. -/
def Action.target : Action α → Option ℕ
  | .async _ q _ | .sync _ q => some q
  | .runnablePush _ | .wake _ | .pop _ | .begin _ | .finish _ | .drainNext _ => none

/-- A push to one queue leaves the others. -/
lemma busyQueue_pushed {t q p : ℕ} {th : Thread α} {func : Func α} {done : Option ℕ}
    (hth : s.threads[t]? = some th) (hin : th.inClient = true) (hp : p ≠ q)
    (h : ((s.pushItem q func).1.goto t (th.pushes q (s.pushItem q func).2 done)).BusyQueue p) :
    s.BusyQueue p := by
  have hqueue : ((s.pushItem q func).1.goto t
      (th.pushes q (s.pushItem q func).2 done)).queues p = s.queues p :=
    Function.update_of_ne hp ..
  have hnodes := nodes_goto (s := (s.pushItem q func).1) hth
    (th.pushes q (s.pushItem q func).2 done) p
  have hsame : (s.pushItem q func).1.nodes p = s.nodes p := rfl
  have hcall : th.call.nodes p = 0 := by
    rw [Thread.call_of_inClient hin]
    rfl
  simp only [Thread.nodes, Call.nodes_pushes, role_pushes, if_neg (Ne.symm hp), hcall] at hnodes
  rw [State.BusyQueue, hqueue] at h
  rcases h with hitems | hpos | hdraining
  · exact .inl hitems
  · exact .inr (.inl (by omega))
  · exact .inr (.inr hdraining)

/-- A step that changes no queue and moves no node. -/
lemma busyQueue_same {p : ℕ} (h : s'.BusyQueue p) (hqueues : s'.queues = s.queues)
    (hnodes : s'.nodes p = s.nodes p) : s.BusyQueue p := by
  rwa [State.BusyQueue, hqueues, hnodes] at h

/-- A worker that takes something from a queue leaves the others. -/
lemma busyQueue_take {t q p : ℕ} {th : Thread α} {got : Option (Item α) × Queue α}
    (hth : s.threads[t]? = some th) (hp : p ≠ q) (h : (s.take t th q got).BusyQueue p) :
    s.BusyQueue p := by
  have hqueue : (s.take t th q got).queues p = s.queues p := Function.update_of_ne hp ..
  have hnodes := nodes_take (q := q) hth got p
  rw [State.BusyQueue, hqueue] at h
  rcases h with hitems | hpos | hdraining
  · exact .inl hitems
  · exact .inr (.inl (by omega))
  · exact .inr (.inr hdraining)

/-- **Only a push makes a queue busy.** -/
theorem busyQueue_step {a : Action α} (hs : Step s a s') {p : ℕ} (h : s'.BusyQueue p) :
    s.BusyQueue p ∨ a.target = some p := by
  cases hs with
  | @async t q f th hth hin =>
    by_cases hp : p = q
    · exact .inr (by rw [hp]; rfl)
    · exact .inl (busyQueue_pushed hth hin hp h)
  | @sync t q th hth hin hkey =>
    by_cases hp : p = q
    · exact .inr (by rw [hp]; rfl)
    · exact .inl (busyQueue_pushed hth hin hp h)
  | runnablePush hth hcall => exact .inl (busyQueue_same h rfl (nodes_runnablePush hth hcall p))
  | wake hth hcall hpos => exact .inl (busyQueue_same h rfl (nodes_wake hth hcall _ p))
  | pop hth hrole hrun => exact .inl (busyQueue_same h rfl (nodes_pop hth hrole hrun p))
  | @begin t q th hth hrole =>
    by_cases hp : p = q
    · subst hp
      have hnodes := nodes_take (q := p) hth (s.queues p).begin p
      simp only [hrole, Role.nodes, if_pos] at hnodes
      exact .inl (.inr (.inl (by omega)))
    · exact .inl (busyQueue_take hth hp h)
  | @finishSerial t q item th hth hrole hcall hserial =>
    exact .inl (busyQueue_same h (by cases item.func <;> rfl)
      (nodes_finish hth hrole { th with role := .returned q, drainingKey := none } rfl
        (fun _ => rfl) p))
  | @finishConcurrent t q item th hth hrole hcall hserial =>
    exact .inl (busyQueue_same h (by cases item.func <;> rfl)
      (nodes_finish hth hrole { th with role := .top } rfl (fun _ => rfl) p))
  | @drainNext t q th hth hrole =>
    by_cases hp : p = q
    · subst hp
      have hqueue : (s.take t th p (s.queues p).drainNext).queues p = (s.queues p).drainNext.2 :=
        Function.update_self ..
      have hnodes := nodes_take (q := p) hth (s.queues p).drainNext p
      rw [State.BusyQueue, hqueue] at h
      rcases h with hitems | hpos | hdraining
      · refine .inl (.inl fun hnil => hitems ?_)
        have happend := Queue.items_drainNext (s.queues p)
        rw [hnil] at happend
        exact (List.append_eq_nil_iff.mp happend.symm).2
      · exact .inl (.inr (.inl (by omega)))
      · exact .inl (.inr (.inr (Queue.draining_of_drainNext hdraining)))
    · exact .inl (busyQueue_take hth hp h)

end

/-! ## The process -/

/-- A dispatch object. -/
inductive Obj where
  /-- A queue. -/
  | queue (q : ℕ)
  /-- A group. -/
  | group (g : ℕ)
  deriving DecidableEq

/-- A push that a thread has yet to make for a notify, a timer or a `dispatch_group_async`: the
thread, the queue, and the group whose trampoline it is. -/
structure PendingPush where
  /-- The thread. -/
  thread : ℕ
  /-- The queue. -/
  queue : ℕ
  /-- The group of a `dispatch_group_async`. -/
  group : Option ℕ
  deriving DecidableEq

/-- The process. An item of the pool carries the group whose `_dispatch_group_async_trampoline` it
is, if any. The last three fields are the history. -/
structure Process where
  /-- The queues and the workers. -/
  pool : State (Option ℕ)
  /-- The thread of `timer_main`. -/
  timerThread : ℕ
  /-- `g_timers`: the deadline and the queue of each timer. -/
  timers : List (ℕ × ℕ)
  /-- The groups that were created. -/
  groups : List Group
  /-- The number of the next notify. -/
  nextNotify : ℕ
  /-- The pushes in the hands of the threads, in the order of each thread. -/
  hand : List PendingPush
  /-- The workers whose item has left its group, and has yet to return. -/
  left : List ℕ
  /-- `refcount`. -/
  refcount : Obj → ℕ
  /-- `destroy` was called. -/
  destroyed : Obj → Bool
  /-- The client created the object. -/
  created : Obj → Bool
  /-- The references of the client. -/
  held : Obj → ℕ
  /-- The items submitted with `dispatch_group_async` that have not left the group. -/
  outstanding : ℕ → ℕ

namespace Process

/-- The main queue and the global queue, which the library creates. -/
def mainQueue : ℕ := 0

/-- The global queue. -/
def globalQueue : ℕ := 1

/-- After `_dispatch_workerpool_start` and `_dispatch_timer_thread_start`: `n` workers, the timer
thread, and `m` threads of the client. The kinds of the queues that will be created are given. -/
def init (serial : ℕ → Bool) (n m : ℕ) : Process where
  pool := Dispatch.init serial n (m + 1)
  timerThread := n
  timers := []
  groups := []
  nextNotify := 0
  hand := []
  left := []
  refcount o := if o = .queue mainQueue ∨ o = .queue globalQueue then 1 else 0
  destroyed _ := false
  created _ := false
  held o := if o = .queue mainQueue ∨ o = .queue globalQueue then 1 else 0
  outstanding _ := 0

/-- A step of the process. -/
inductive Action where
  /-- `dispatch_queue_create` or `dispatch_group_create`. -/
  | create (t : ℕ) (o : Obj)
  /-- `dispatch_retain`. -/
  | retain (t : ℕ) (o : Obj)
  /-- `dispatch_release`. -/
  | release (t : ℕ) (o : Obj)
  /-- `dispatch_async`, also of a `dispatch_after` whose time has come. -/
  | async (t q : ℕ)
  /-- `dispatch_sync`. -/
  | sync (t q : ℕ)
  /-- `dispatch_after`, up to the end of `_dispatch_timer_schedule`. -/
  | after (t q deadline : ℕ)
  /-- `dispatch_group_enter`. -/
  | enter (t g : ℕ)
  /-- `dispatch_group_leave`, up to the end of the locked section. -/
  | leave (t g : ℕ)
  /-- `dispatch_group_async`, up to the end of its enter. -/
  | groupAsync (t g q : ℕ)
  /-- `dispatch_group_notify`, up to the end of the locked section. -/
  | notify (t g q : ℕ)
  /-- The leave of `_dispatch_group_async_trampoline`, up to the end of the locked section. -/
  | leaveItem (t : ℕ)
  /-- `timer_main` takes a timer off the list. -/
  | fireTimer
  /-- The next push in the hand of a thread. -/
  | push (t : ℕ)
  /-- A step of the pool that is no push. -/
  | pool (a : Dispatch.Action (Option ℕ))
  deriving DecidableEq

/-- The thread has a push in its hand. -/
def hasHand (s : Process) (t : ℕ) : Bool := s.hand.any fun p => p.thread == t

/-- Code of the client is running in the thread. -/
def mayCall (s : Process) (t : ℕ) : Bool :=
  t != s.timerThread && !s.hasHand t && !s.left.contains t && s.pool.threads[t]?.any Thread.inClient

/-- The client has a reference to the object. -/
def holds (s : Process) (o : Obj) : Bool := decide (0 < s.held o)

/-- The number of a new object is that of no other one; groups are numbered as they come. -/
def isFresh (s : Process) : Obj → Bool
  | .queue q => q != mainQueue && q != globalQueue && !s.created (.queue q)
  | .group g => g == s.groups.length && !s.created (.group g)

/-- `dispatch_queue_create` or `dispatch_group_create`, with `_dispatch_object_init`. -/
def create (s : Process) (o : Obj) : Process :=
  { s with
    groups := match o with
      | .queue _ => s.groups
      | .group _ => s.groups ++ [Group.create]
    refcount := Function.update s.refcount o 1
    created := Function.update s.created o true
    held := Function.update s.held o 1 }

/-- `dispatch_retain`. -/
def retain (s : Process) (o : Obj) : Process :=
  { s with
    refcount := Function.update s.refcount o (s.refcount o + 1)
    held := Function.update s.held o (s.held o + 1) }

/-- `dispatch_release`. -/
def release (s : Process) (o : Obj) : Process :=
  { s with
    refcount := Function.update s.refcount o (s.refcount o - 1)
    destroyed := if s.refcount o - 1 = 0 then Function.update s.destroyed o true else s.destroyed
    held := Function.update s.held o (s.held o - 1) }

/-- The list of `_dispatch_timer_schedule`, sorted by deadline. -/
def schedule (deadline q : ℕ) : List (ℕ × ℕ) → List (ℕ × ℕ)
  | [] => [(deadline, q)]
  | (d, p) :: rest =>
    if d ≤ deadline then (d, p) :: schedule deadline q rest else (deadline, q) :: (d, p) :: rest

/-- The section of a leave: the thread has the detached notifies in its hand. -/
def leaveGroup (s : Process) (t g : ℕ) (group : Group) : Process :=
  let left := group.leave
  { s with
    groups := s.groups.set g left.1
    hand := s.hand ++ left.2.map fun node => ⟨t, node.queue, none⟩ }

/-- The group whose trampoline the thread runs. -/
def itemGroup (s : Process) (t : ℕ) : Option ℕ :=
  match s.pool.threads[t]? with
  | some ⟨.running _ ⟨_, .client f⟩, .none, _⟩ => f
  | _ => none

/-- The pool takes a step. -/
def poolStep (s : Process) (a : Dispatch.Action (Option ℕ)) : Option Process :=
  (Dispatch.step s.pool a).map fun pool => { s with pool := pool }

/-- A step. The client uses an object only while it has a reference to it, leaves a group only when
the group is entered, and releases only what it has. -/
def step (s : Process) : Action → Option Process
  | .create t o => if s.mayCall t && s.isFresh o then some (s.create o) else none
  | .retain t o => if s.mayCall t && s.created o && s.holds o then some (s.retain o) else none
  | .release t o => if s.mayCall t && s.created o && s.holds o then some (s.release o) else none
  | .async t q => if s.mayCall t && s.holds (.queue q) then s.poolStep (.async t q none) else none
  | .sync t q => if s.mayCall t && s.holds (.queue q) then s.poolStep (.sync t q) else none
  | .after t q deadline =>
    if s.mayCall t && s.holds (.queue q) then
      some { s with timers := schedule deadline q s.timers }
    else none
  | .enter t g =>
    match s.groups[g]? with
    | some group =>
      if s.mayCall t && s.holds (.group g) then
        some { s with groups := s.groups.set g group.enter }
      else none
    | none => none
  | .leave t g =>
    match s.groups[g]? with
    | some group =>
      if s.mayCall t && s.holds (.group g) && decide (0 < group.count) then
        some (s.leaveGroup t g group)
      else none
    | none => none
  | .groupAsync t g q =>
    match s.groups[g]? with
    | some group =>
      if s.mayCall t && s.holds (.group g) && s.holds (.queue q) then
        some { s with
          groups := s.groups.set g group.enter
          hand := s.hand ++ [⟨t, q, some g⟩]
          outstanding := Function.update s.outstanding g (s.outstanding g + 1) }
      else none
    | none => none
  | .notify t g q =>
    match s.groups[g]? with
    | some group =>
      if s.mayCall t && s.holds (.group g) && s.holds (.queue q) then
        let noted := group.notify ⟨s.nextNotify, q⟩
        some { s with
          groups := s.groups.set g noted.1
          nextNotify := s.nextNotify + 1
          hand := if noted.2 then s.hand ++ [⟨t, q, none⟩] else s.hand }
      else none
    | none => none
  | .leaveItem t =>
    match s.itemGroup t with
    | some g =>
      match s.groups[g]? with
      | some group =>
        if !s.hasHand t && !s.left.contains t then
          some { s.leaveGroup t g group with
            left := t :: s.left
            outstanding := Function.update s.outstanding g (s.outstanding g - 1) }
        else none
      | none => none
    | none => none
  | .fireTimer =>
    match s.timers with
    | (_, q) :: rest =>
      if s.hasHand s.timerThread then none
      else some { s with timers := rest, hand := s.hand ++ [⟨s.timerThread, q, none⟩] }
    | [] => none
  | .push t =>
    match s.hand.find? (fun p => p.thread == t) with
    | some p => { s with hand := s.hand.erase p }.poolStep (.async t p.queue p.group)
    | none => none
  | .pool a =>
    match a with
    | .async _ _ _ | .sync _ _ => none
    | .finish t =>
      if !s.hasHand t && (s.itemGroup t).isNone then s.poolStep a
      else if !s.hasHand t && s.left.contains t then
        { s with left := s.left.erase t }.poolStep a
      else none
    | .runnablePush _ | .wake _ | .pop _ | .begin _ | .drainNext _ => s.poolStep a

/-! ## Busy objects -/

/-- There is pending work that names the object: for a queue an item, a node, a drain, a timer, a
notify or a push in the hand of a thread, for a group an item that has not left. -/
def Busy (s : Process) : Obj → Prop
  | .queue q => s.pool.BusyQueue q ∨ (∃ e ∈ s.timers, e.2 = q) ∨
    (∃ group ∈ s.groups, ∃ node ∈ group.notifyHead, node.queue = q) ∨ ∃ p ∈ s.hand, p.queue = q
  | .group g => 0 < s.outstanding g

instance (s : Process) (o : Obj) : Decidable (s.Busy o) := by
  cases o with
  | queue q => exact inferInstanceAs (Decidable (_ ∨ _ ∨ _ ∨ _))
  | group g => exact inferInstanceAs (Decidable (0 < s.outstanding g))

/-- No busy object is destroyed. -/
def Outlives (s : Process) : Prop := ∀ o, s.destroyed o = true → ¬s.Busy o

/-- The release that brings the count to 0 finds no pending work that names the object. -/
def Idle (s : Process) : Action → Prop
  | .release _ o => s.refcount o = 1 → ¬s.Busy o
  | _ => True

instance (s : Process) (a : Action) : Decidable (s.Idle a) := by
  unfold Idle
  split <;> infer_instance

/-! ## Only a holder makes an object busy -/

section

variable {s s' : Process} {t g q : ℕ} {o : Obj}

/-- A step of the pool. -/
lemma of_poolStep {a : Dispatch.Action (Option ℕ)} (h : s.poolStep a = some s') :
    ∃ pool, Dispatch.Step s.pool a pool ∧ s' = { s with pool := pool } := by
  obtain ⟨pool, hstep, rfl⟩ := Option.map_eq_some_iff.mp h
  exact ⟨pool, .of_step hstep, rfl⟩

/-- A step of the pool makes no queue busy but the one it pushes to. -/
lemma busy_poolStep {a : Dispatch.Action (Option ℕ)} (h : s.poolStep a = some s')
    (hbusy : s'.Busy o) : s.Busy o ∨ ∃ q, o = .queue q ∧ a.target = some q := by
  obtain ⟨pool, hstep, rfl⟩ := of_poolStep h
  cases o with
  | group g => exact .inl hbusy
  | queue q =>
    rcases hbusy with hpool | hrest
    · rcases busyQueue_step hstep hpool with hbefore | htarget
      · exact .inl (.inl hbefore)
      · exact .inr ⟨q, rfl, htarget⟩
    · exact .inl (.inr hrest)

/-- The timers after one was added. -/
lemma mem_schedule {deadline : ℕ} {timers : List (ℕ × ℕ)} {e : ℕ × ℕ}
    (h : e ∈ schedule deadline q timers) : e = (deadline, q) ∨ e ∈ timers := by
  induction timers with
  | nil => exact .inl (List.mem_singleton.mp h)
  | cons d timers ih =>
    rw [schedule] at h
    split at h
    · rcases List.mem_cons.mp h with rfl | h
      · exact .inr List.mem_cons_self
      · rcases ih h with rfl | hold
        · exact .inl rfl
        · exact .inr (List.mem_cons_of_mem _ hold)
    · exact List.mem_cons.mp h

/-- The notifies of the groups after one group has changed. -/
lemma notify_set {group group' : Group} (hg : s.groups[g]? = some group) {p : ℕ}
    (h : ∃ x ∈ s.groups.set g group', ∃ node ∈ x.notifyHead, node.queue = p) :
    (∃ x ∈ s.groups, ∃ node ∈ x.notifyHead, node.queue = p) ∨
      ∃ node ∈ group'.notifyHead, node ∉ group.notifyHead ∧ node.queue = p := by
  obtain ⟨x, hx, node, hnode, hp⟩ := h
  rcases List.mem_or_eq_of_mem_set hx with hx | rfl
  · exact .inl ⟨x, hx, node, hnode, hp⟩
  · by_cases hold : node ∈ group.notifyHead
    · exact .inl ⟨group, List.mem_of_getElem? hg, node, hold, hp⟩
    · exact .inr ⟨node, hnode, hold, hp⟩

/-- What a leave detaches was in the list, and what it leaves too. -/
lemma leave_sub {group : Group} :
    (∀ node ∈ group.leave.2, node ∈ group.notifyHead) ∧
      ∀ node ∈ group.leave.1.notifyHead, node ∈ group.notifyHead := by
  rw [Group.leave]
  split
  · exact ⟨fun _ h => h, by simp⟩
  · exact ⟨by simp, fun _ h => h⟩

/-- A leave makes nothing busy. -/
lemma busy_leaveGroup {group : Group} (hg : s.groups[g]? = some group)
    (hbusy : (s.leaveGroup t g group).Busy o) : s.Busy o := by
  cases o with
  | group g => exact hbusy
  | queue q =>
    rcases hbusy with hpool | htimer | hnotify | hhand
    · exact .inl hpool
    · exact .inr (.inl htimer)
    · rcases notify_set hg hnotify with hold | ⟨node, hnode, hnew, -⟩
      · exact .inr (.inr (.inl hold))
      · exact absurd (leave_sub.2 node hnode) hnew
    · obtain ⟨p, hp, hq⟩ := hhand
      rcases List.mem_append.mp hp with hp | hp
      · exact .inr (.inr (.inr ⟨p, hp, hq⟩))
      · obtain ⟨node, hnode, rfl⟩ := List.mem_map.mp hp
        exact .inr (.inr (.inl ⟨group, List.mem_of_getElem? hg, node, leave_sub.1 node hnode, hq⟩))

/-- What a notify adds to the list. -/
lemma notify_head {group : Group} {node new : Notify}
    (h : node ∈ (group.notify new).1.notifyHead) : node ∈ group.notifyHead ∨ node = new := by
  rw [Group.notify] at h
  split at h
  · exact .inl h
  · rcases List.mem_cons.mp h with rfl | h
    · exact .inr rfl
    · exact .inl h

/-- **Only a holder makes an object busy**: what a step makes busy was busy, or the client that
takes the step has a reference to it.

**Proof sketch.** A call of the client names objects that it holds. All other pushes are of a
timer, a notify or an item in the hand of a thread, which named the queue before. -/
theorem busy_step {a : Action} (h : step s a = some s') (hbusy : s'.Busy o) :
    s.Busy o ∨ 0 < s.held o := by
  have hheld : ∀ {o : Obj}, s.holds o = true → 0 < s.held o := fun h => of_decide_eq_true h
  cases a with
  | create t o' =>
    simp only [step] at h
    split at h
    · cases h
      cases o with
      | group g => exact .inl hbusy
      | queue q =>
        cases o' with
        | queue q' => exact .inl hbusy
        | group g =>
          rcases hbusy with hpool | htimer | ⟨group, hgroup, node, hnode, hq⟩ | hhand
          · exact .inl (.inl hpool)
          · exact .inl (.inr (.inl htimer))
          · rcases List.mem_append.mp hgroup with hgroup | hgroup
            · exact .inl (.inr (.inr (.inl ⟨group, hgroup, node, hnode, hq⟩)))
            · rw [List.mem_singleton.mp hgroup] at hnode
              cases hnode
          · exact .inl (.inr (.inr (.inr hhand)))
    · cases h
  | retain t o' =>
    simp only [step] at h
    split at h
    · cases h
      exact .inl (by cases o <;> exact hbusy)
    · cases h
  | release t o' =>
    simp only [step] at h
    split at h
    · cases h
      exact .inl (by cases o <;> exact hbusy)
    · cases h
  | async t q =>
    simp only [step] at h
    split at h
    · next hguard =>
      rcases busy_poolStep h hbusy with hbefore | ⟨p, rfl, hp⟩
      · exact .inl hbefore
      · cases hp
        exact .inr (hheld (Bool.and_eq_true_iff.mp hguard).2)
    · cases h
  | sync t q =>
    simp only [step] at h
    split at h
    · next hguard =>
      rcases busy_poolStep h hbusy with hbefore | ⟨p, rfl, hp⟩
      · exact .inl hbefore
      · cases hp
        exact .inr (hheld (Bool.and_eq_true_iff.mp hguard).2)
    · cases h
  | after t q deadline =>
    simp only [step] at h
    split at h
    · next hguard =>
      cases h
      cases o with
      | group g => exact .inl hbusy
      | queue p =>
        rcases hbusy with hpool | ⟨e, he, hp⟩ | hrest
        · exact .inl (.inl hpool)
        · rcases mem_schedule he with rfl | he
          · cases hp
            exact .inr (hheld (Bool.and_eq_true_iff.mp hguard).2)
          · exact .inl (.inr (.inl ⟨e, he, hp⟩))
        · exact .inl (.inr (.inr hrest))
    · cases h
  | enter t g =>
    simp only [step] at h
    split at h
    · next group hg =>
      split at h
      · cases h
        cases o with
        | group g => exact .inl hbusy
        | queue q =>
          rcases hbusy with hpool | htimer | hnotify | hhand
          · exact .inl (.inl hpool)
          · exact .inl (.inr (.inl htimer))
          · rcases notify_set hg hnotify with hold | ⟨node, hnode, hnew, -⟩
            · exact .inl (.inr (.inr (.inl hold)))
            · exact absurd hnode hnew
          · exact .inl (.inr (.inr (.inr hhand)))
      · cases h
    · cases h
  | leave t g =>
    simp only [step] at h
    split at h
    · next group hg =>
      split at h
      · cases h
        exact .inl (busy_leaveGroup hg hbusy)
      · cases h
    · cases h
  | groupAsync t g q =>
    simp only [step] at h
    split at h
    · next group hg =>
      split at h
      · next hguard =>
        obtain ⟨hguard, hq⟩ := Bool.and_eq_true_iff.mp hguard
        obtain ⟨-, hgheld⟩ := Bool.and_eq_true_iff.mp hguard
        cases h
        cases o with
        | group p =>
          by_cases hp : p = g
          · subst hp
            exact .inr (hheld hgheld)
          · refine .inl ?_
            change 0 < Function.update s.outstanding g (s.outstanding g + 1) p at hbusy
            rwa [Function.update_of_ne hp] at hbusy
        | queue p =>
          rcases hbusy with hpool | htimer | hnotify | ⟨e, he, hp⟩
          · exact .inl (.inl hpool)
          · exact .inl (.inr (.inl htimer))
          · rcases notify_set hg hnotify with hold | ⟨node, hnode, hnew, -⟩
            · exact .inl (.inr (.inr (.inl hold)))
            · exact absurd hnode hnew
          · rcases List.mem_append.mp he with he | he
            · exact .inl (.inr (.inr (.inr ⟨e, he, hp⟩)))
            · rw [List.mem_singleton.mp he] at hp
              cases hp
              exact .inr (hheld hq)
      · cases h
    · cases h
  | notify t g q =>
    simp only [step] at h
    split at h
    · next group hg =>
      split at h
      · next hguard =>
        have hq := hheld (Bool.and_eq_true_iff.mp hguard).2
        cases h
        cases o with
        | group p => exact .inl hbusy
        | queue p =>
          rcases hbusy with hpool | htimer | hnotify | ⟨e, he, hp⟩
          · exact .inl (.inl hpool)
          · exact .inl (.inr (.inl htimer))
          · rcases notify_set hg hnotify with hold | ⟨node, hnode, hnew, hp⟩
            · exact .inl (.inr (.inr (.inl hold)))
            · rcases notify_head hnode with hold | rfl
              · exact absurd hold hnew
              · cases hp
                exact .inr hq
          · split at he
            · rcases List.mem_append.mp he with he | he
              · exact .inl (.inr (.inr (.inr ⟨e, he, hp⟩)))
              · rw [List.mem_singleton.mp he] at hp
                cases hp
                exact .inr hq
            · exact .inl (.inr (.inr (.inr ⟨e, he, hp⟩)))
      · cases h
    · cases h
  | leaveItem t =>
    simp only [step] at h
    split at h
    · next g hitem =>
      split at h
      · next group hg =>
        split at h
        · cases h
          cases o with
          | queue q => exact .inl (busy_leaveGroup (o := .queue q) hg hbusy)
          | group p =>
            refine .inl ?_
            change 0 < Function.update s.outstanding g (s.outstanding g - 1) p at hbusy
            by_cases hp : p = g
            · subst hp
              rw [Function.update_self] at hbusy
              exact Nat.lt_of_lt_of_le hbusy (Nat.sub_le _ _)
            · rwa [Function.update_of_ne hp] at hbusy
        · cases h
      · cases h
    · cases h
  | fireTimer =>
    simp only [step] at h
    split at h
    · next d q rest htimers =>
      split at h
      · cases h
      · cases h
        refine .inl ?_
        cases o with
        | group p => exact hbusy
        | queue p =>
          rcases hbusy with hpool | ⟨e, he, hp⟩ | hnotify | ⟨e, he, hp⟩
          · exact .inl hpool
          · exact .inr (.inl ⟨e, by rw [htimers]; exact List.mem_cons_of_mem _ he, hp⟩)
          · exact .inr (.inr (.inl hnotify))
          · rcases List.mem_append.mp he with he | he
            · exact .inr (.inr (.inr ⟨e, he, hp⟩))
            · rw [List.mem_singleton.mp he] at hp
              exact .inr (.inl ⟨(d, q), by rw [htimers]; exact List.mem_cons_self, hp⟩)
    · cases h
  | push t =>
    simp only [step] at h
    split at h
    · next p hp =>
      have hmem := List.mem_of_find?_eq_some hp
      rcases busy_poolStep h hbusy with hbefore | ⟨q, rfl, hq⟩
      · refine .inl ?_
        cases o with
        | group g => exact hbefore
        | queue q =>
          rcases hbefore with hpool | htimer | hnotify | ⟨e, he, hq⟩
          · exact .inl hpool
          · exact .inr (.inl htimer)
          · exact .inr (.inr (.inl hnotify))
          · exact .inr (.inr (.inr ⟨e, List.mem_of_mem_erase he, hq⟩))
      · cases hq
        exact .inl (.inr (.inr (.inr ⟨p, hmem, rfl⟩)))
    · cases h
  | pool a =>
    have hprogress : ∀ {r : Process}, r.poolStep a = some s' → a.target = none →
        (r.Busy o → s.Busy o) → s.Busy o ∨ 0 < s.held o := by
      intro r hr htarget hsame
      rcases busy_poolStep hr hbusy with hbefore | ⟨q, -, hq⟩
      · exact .inl (hsame hbefore)
      · rw [htarget] at hq
        cases hq
    simp only [step] at h
    split at h
    · cases h
    · cases h
    · split at h
      · exact hprogress h rfl id
      · split at h
        · exact hprogress h rfl (by cases o <;> exact id)
        · cases h
    all_goals exact hprogress h rfl id

/-! ## References -/

/-- The references of the client are all there are, and a destroyed object has none. -/
structure Counted (s : Process) : Prop where
  /-- Nobody else retains. -/
  refs : ∀ o, s.refcount o = s.held o
  /-- A destroyed object has no references, and is not made again. -/
  dead : ∀ o, s.destroyed o = true → s.held o = 0 ∧ s.created o = true

/-- What is known of the references of a process. -/
def refs (s : Process) : (Obj → ℕ) × (Obj → ℕ) × (Obj → Bool) × (Obj → Bool) :=
  (s.refcount, s.held, s.destroyed, s.created)

/-- The step creates, retains or releases. -/
def Action.counts : Action → Bool
  | .create _ _ | .retain _ _ | .release _ _ => true
  | .async _ _ | .sync _ _ | .after _ _ _ | .enter _ _ | .leave _ _ | .groupAsync _ _ _
  | .notify _ _ _ | .leaveItem _ | .fireTimer | .push _ | .pool _ => false

/-- A step of the pool counts nothing. -/
lemma refs_poolStep {a : Dispatch.Action (Option ℕ)} (h : s.poolStep a = some s') :
    s'.refs = s.refs := by
  obtain ⟨pool, -, rfl⟩ := of_poolStep h
  rfl

/-- Nothing else retains or releases. -/
lemma refs_step {a : Action} (h : step s a = some s') (ha : a.counts = false) :
    s'.refs = s.refs := by
  cases a with
  | create t o => cases ha
  | retain t o => cases ha
  | release t o => cases ha
  | async t q =>
    simp only [step] at h
    split at h
    · exact refs_poolStep h
    · cases h
  | sync t q =>
    simp only [step] at h
    split at h
    · exact refs_poolStep h
    · cases h
  | after t q deadline =>
    simp only [step] at h
    split at h <;> cases h
    rfl
  | enter t g =>
    simp only [step] at h
    split at h
    · split at h <;> cases h
      rfl
    · cases h
  | leave t g =>
    simp only [step] at h
    split at h
    · split at h <;> cases h
      rfl
    · cases h
  | groupAsync t g q =>
    simp only [step] at h
    split at h
    · split at h <;> cases h
      rfl
    · cases h
  | notify t g q =>
    simp only [step] at h
    split at h
    · split at h <;> cases h
      rfl
    · cases h
  | leaveItem t =>
    simp only [step] at h
    split at h
    · split at h
      · split at h <;> cases h
        rfl
      · cases h
    · cases h
  | fireTimer =>
    simp only [step] at h
    split at h
    · split at h <;> cases h
      rfl
    · cases h
  | push t =>
    simp only [step] at h
    split at h
    · exact (refs_poolStep h).trans rfl
    · cases h
  | pool a =>
    simp only [step] at h
    split at h
    · cases h
    · cases h
    · split at h
      · exact refs_poolStep h
      · split at h
        · exact (refs_poolStep h).trans rfl
        · cases h
    all_goals exact refs_poolStep h

/-- A release changes nothing that pending work is about. -/
lemma busy_release {o' : Obj} : (s.release o).Busy o' ↔ s.Busy o' := by
  cases o' <;> exact Iff.rfl

/-- The references after one object's have changed. -/
lemma Counted.update (h : Counted s) {k : ℕ} (hcreated : s.destroyed o = true → k = 0)
    {s' : Process} (hrefcount : s'.refcount = Function.update s.refcount o k)
    (hheld : s'.held = Function.update s.held o k) (hmade : ∀ o', s.created o' = true →
      s'.created o' = true) (hdestroyed : ∀ o', s'.destroyed o' = true →
        s.destroyed o' = true ∨ o' = o ∧ k = 0 ∧ s'.created o = true) : Counted s' where
  refs o' := by
    rw [hrefcount, hheld]
    by_cases ho : o' = o
    · subst ho
      rw [Function.update_self, Function.update_self]
    · rw [Function.update_of_ne ho, Function.update_of_ne ho, h.refs]
  dead o' ho' := by
    rw [hheld]
    rcases hdestroyed o' ho' with hold | ⟨rfl, rfl, hmade'⟩
    · obtain ⟨hzero, hmade'⟩ := h.dead o' hold
      refine ⟨?_, hmade o' hmade'⟩
      by_cases ho : o' = o
      · subst ho
        rw [Function.update_self, hcreated hold]
      · rw [Function.update_of_ne ho, hzero]
    · exact ⟨Function.update_self .., hmade'⟩

/-- Every step counts. -/
lemma Counted.step (h : Counted s) {a : Action} (hs : Process.step s a = some s') :
    Counted s' := by
  cases a with
  | create t o =>
    simp only [Process.step] at hs
    split at hs
    · next hguard =>
      cases hs
      have hfresh : s.created o = false := by
        obtain ⟨-, hfresh⟩ := Bool.and_eq_true_iff.mp hguard
        cases o <;> simp_all [isFresh]
      refine h.update (o := o) (k := 1) (fun hdead => ?_) rfl rfl (fun o' ho' => ?_)
        fun _ hdead => .inl hdead
      · rw [(h.dead o hdead).2] at hfresh
        cases hfresh
      · change Function.update s.created o true o' = true
        by_cases ho : o' = o
        · subst ho
          exact Function.update_self ..
        · rwa [Function.update_of_ne ho]
    · cases hs
  | retain t o =>
    simp only [Process.step] at hs
    split at hs
    · next hguard =>
      cases hs
      have hpos : 0 < s.held o := of_decide_eq_true (Bool.and_eq_true_iff.mp hguard).2
      refine h.update (o := o) (k := s.held o + 1) (fun hdead => ?_) ?_ rfl (fun _ ho' => ho')
        fun _ hdead => .inl hdead
      · rw [(h.dead o hdead).1] at hpos
        exact absurd hpos (Nat.lt_irrefl 0)
      · rw [← h.refs o]
        rfl
    · cases hs
  | release t o =>
    simp only [Process.step] at hs
    split at hs
    · next hguard =>
      cases hs
      obtain ⟨hguard, hpos⟩ := Bool.and_eq_true_iff.mp hguard
      obtain ⟨-, hmade⟩ := Bool.and_eq_true_iff.mp hguard
      refine h.update (o := o) (k := s.held o - 1) (fun hdead => ?_) ?_ rfl (fun _ ho' => ho')
        fun o' hdead => ?_
      · rw [(h.dead o hdead).1]
      · rw [← h.refs o]
        rfl
      · change (if s.refcount o - 1 = 0 then Function.update s.destroyed o true
          else s.destroyed) o' = true at hdead
        split at hdead
        · next hzero =>
          by_cases ho : o' = o
          · exact .inr ⟨ho, by rw [← h.refs o]; exact hzero, hmade⟩
          · rw [Function.update_of_ne ho] at hdead
            exact .inl hdead
        · exact .inl hdead
    · cases hs
  | async _ _ | sync _ _ | after _ _ _ | enter _ _ | leave _ _ | groupAsync _ _ _ | notify _ _ _
  | leaveItem _ | fireTimer | push _ | pool _ =>
    have hrefs := refs_step hs rfl
    simp only [Process.refs, Prod.mk.injEq] at hrefs
    obtain ⟨hrefcount, hheld, hdestroyed, hcreated⟩ := hrefs
    exact ⟨fun o => by rw [hrefcount, hheld, h.refs],
      fun o ho => by rw [hheld, hcreated]; exact h.dead o (by rwa [hdestroyed] at ho)⟩

/-- At first. -/
lemma Counted.init (serial : ℕ → Bool) (n m : ℕ) : Counted (init serial n m) where
  refs _ := rfl
  dead _ h := by cases h

/-- A step whose release, if it is one, finds its object idle destroys no busy object, and none
becomes busy. -/
lemma Outlives.step (h : Outlives s) (hcounted : Counted s) {a : Action} (hidle : Idle s a)
    (hs : Process.step s a = some s') : Outlives s' := by
  intro o hdead hbusy
  have hold : s.destroyed o = true → False := by
    intro hbefore
    rcases busy_step hs hbusy with hb | hpos
    · exact h o hbefore hb
    · rw [(hcounted.dead o hbefore).1] at hpos
      exact Nat.lt_irrefl 0 hpos
  cases a with
  | create t o' =>
    simp only [Process.step] at hs
    split at hs <;> cases hs
    exact hold hdead
  | retain t o' =>
    simp only [Process.step] at hs
    split at hs <;> cases hs
    exact hold hdead
  | release t o' =>
    simp only [Process.step] at hs
    split at hs
    · next hguard =>
      cases hs
      have hpos : 0 < s.held o' := of_decide_eq_true (Bool.and_eq_true_iff.mp hguard).2
      rw [← hcounted.refs] at hpos
      change (if s.refcount o' - 1 = 0 then Function.update s.destroyed o' true
        else s.destroyed) o = true at hdead
      split at hdead
      · next hzero =>
        by_cases ho : o = o'
        · subst ho
          exact hidle (by omega) (busy_release.1 hbusy)
        · rw [Function.update_of_ne ho] at hdead
          exact hold hdead
      · exact hold hdead
    · cases hs
  | async _ _ | sync _ _ | after _ _ _ | enter _ _ | leave _ _ | groupAsync _ _ _ | notify _ _ _
  | leaveItem _ | fireTimer | push _ | pool _ =>
    have hrefs := refs_step hs rfl
    simp only [refs, Prod.mk.injEq] at hrefs
    exact hold (by rwa [hrefs.2.2.1] at hdead)

/-- A release that finds its object busy destroys it busy. -/
lemma Idle.of_outlives {a : Action} (hs : step s a = some s') (h : Outlives s') : Idle s a := by
  cases a with
  | release t o =>
    intro hone hbusy
    simp only [step] at hs
    split at hs
    · cases hs
      refine h o ?_ (busy_release.2 hbusy)
      change (if s.refcount o - 1 = 0 then Function.update s.destroyed o true
        else s.destroyed) o = true
      rw [hone, if_pos rfl]
      exact Function.update_self ..
    · cases hs
  | create _ _ | retain _ _ | async _ _ | sync _ _ | after _ _ _ | enter _ _ | leave _ _
  | groupAsync _ _ _ | notify _ _ _ | leaveItem _ | fireTimer | push _ | pool _ => exact trivial

/-- **Objects outlive their pending work in the runs, and only in the runs**, in which every release
that brings a count to 0 finds no pending work that names the object.

**Proof sketch.** Only the holder of a reference makes an object busy, and a destroyed object has no
reference left; so an object that is idle when it is destroyed stays idle. A release of a busy one
destroys it busy. -/
theorem outlives (serial : ℕ → Bool) (n m : ℕ) {as : List Action}
    (h : Transition.exec step (init serial n m) as = some s) :
    (∀ pre post r, as = pre ++ post → Transition.exec step (init serial n m) pre = some r →
      Outlives r) ↔ Transition.Along step Idle (init serial n m) as := by
  constructor
  · intro hall
    refine Transition.along_of_split h fun pre a post r r' hsplit hpre hstep hpost => ?_
    refine Idle.of_outlives hstep (hall (pre ++ [a]) post r' ?_ ?_)
    · rw [hsplit, List.append_assoc, List.singleton_append]
    · refine Transition.exec_append.mpr ⟨r, hpre, ?_⟩
      rw [Transition.exec, hstep]
      rfl
  · rintro halong pre post r rfl hpre
    have hinv : Counted r ∧ Outlives r := by
      refine Transition.invariant_along (P := fun r => Counted r ∧ Outlives r) ?_
        ⟨.init serial n m, fun o ho => by cases ho⟩ halong.of_append hpre
      exact fun r a r' hr hidle hs => ⟨hr.1.step hs, hr.2.step hr.1 hidle hs⟩
    exact hinv.2

end

/-! ## The creator's release -/

/-- The creator of a serial queue calls `dispatch_sync` on it, and is back. -/
def syncRun : List Action :=
  [.create 3 (.queue 2), .sync 3 2, .pool (.runnablePush 3), .pool (.pop 0), .pool (.begin 0),
    .pool (.finish 0), .pool (.wake 3)]

/-- The creator waits until the worker is out of the drain loop. -/
theorem outlives_sync :
    ∃ s, Transition.exec step (init (fun q => q != globalQueue) 2 1)
      (syncRun ++ [Action.pool (.drainNext 0), .release 3 (.queue 2)]) = some s ∧
        s.destroyed (.queue 2) = true ∧ Outlives s := by
  obtain ⟨s, hs, hdead⟩ : ∃ s, Transition.exec step (init (fun q => q != globalQueue) 2 1)
      (syncRun ++ [Action.pool (.drainNext 0), .release 3 (.queue 2)]) = some s ∧
        s.destroyed (.queue 2) = true := ⟨_, rfl, rfl⟩
  exact ⟨s, hs, hdead, (outlives _ 2 1 hs).mpr (by decide +kernel) _ [] s
    (List.append_nil _).symm hs⟩

/-- **The creator's release**, right after its `dispatch_sync` has returned, destroys the queue that
a worker is draining. -/
theorem not_outlives_sync :
    ¬∀ (serial : ℕ → Bool) (n m : ℕ) (as : List Action) (s : Process),
      Transition.exec step (init serial n m) as = some s → Outlives s := by
  intro hlaw
  obtain ⟨s, hs, hdead, hdraining⟩ : ∃ s,
      Transition.exec step (init (fun q => q != globalQueue) 2 1)
        (syncRun ++ [Action.release 3 (.queue 2)]) = some s ∧ s.destroyed (.queue 2) = true ∧
          (s.pool.queues 2).draining = true := ⟨_, rfl, rfl, rfl⟩
  exact hlaw _ 2 1 _ s hs (.queue 2) hdead (.inl (.inr (.inr hdraining)))

end Process

end Asteros.Dispatch
