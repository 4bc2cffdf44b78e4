import Asteros.Xpc.Correlation

set_option autoImplicit false

/-!
# The delivery of events

The receive thread hands the events of a connection, or of a listener and its peers, to
`deliver_event`, which waits while the connection is suspended, drops the event if the connection
is cancelled, and else dispatches it to the handler. When its port dies the thread leaves its loop,
sets `cancelled`, and then calls `deliver_event` with `XPC_ERROR_CONNECTION_INVALID`. The flag it
has just set makes that call drop the event: no handler is ever told that its connection is gone.

Other threads set handlers, suspend, resume and cancel at any time. The connection of the thread
has the number 0, the peers of a listener the numbers from 1 on.

## Main definitions

* `Endpoint`, `Machine` — what delivery reads of a connection, and the receive thread with all of
  them.
* `step` — one step of one thread.
* `Reported` — one invalid event was dispatched, as the last one.

## Main results

* `not_reported` — no run of any threads reports the death of a connection.
-/

namespace Asteros.Xpc.Events

open Asteros.Libc Transition

/-! ## The threads -/

/-- What is dispatched to a handler. -/
inductive Event where
  /-- By `deliver_event`. -/
  | message (event : XpcObject)
  /-- By `find_or_create_peer`, to the handler of a listener: a new peer. -/
  | peer (c : ℕ)

/-- The members of `struct xpc_connection_data` that delivery works on. -/
structure Endpoint where
  /-- `suspend_count`. -/
  suspendCount : ℕ := 0
  /-- `cancelled`. -/
  cancelled : Bool := false
  /-- `handler` is set. -/
  handler : Bool := false
  /-- `handler_f` is set. -/
  handlerF : Bool := false
  /-- What was dispatched to the handler so far. -/
  dispatched : List Event := []

/-- A handler of one of the two kinds is installed. -/
def Endpoint.installed (e : Endpoint) : Bool := e.handler || e.handlerF

/-- Where the receive thread is. -/
inductive RecvPc where
  /-- The connection is not activated. -/
  | notStarted
  /-- In `mach_msg`, or between messages. -/
  | receiving
  /-- `find_or_create_peer` has made a new peer. -/
  | accepting (c : ℕ) (msg : Arrival)
  /-- In `route_incoming`. -/
  | routing (c : ℕ) (msg : Arrival)
  /-- In `deliver_event`, in front of its critical section; the last event is the one behind the
  loop. -/
  | gate (c : ℕ) (event : XpcObject) (last : Bool)
  /-- Behind its critical section, with the value of `cancelled` read there. -/
  | passed (c : ℕ) (event : XpcObject) (cancelled last : Bool)
  /-- `mach_msg` has failed; the loop is left. -/
  | stopped
  /-- `cancelled` is set. -/
  | marked
  /-- The pending requests are failed. -/
  | drained
  /-- The thread has ended. -/
  | ended

/-- A receive thread with its connection, and the peers if that is a listener. -/
structure Machine where
  /-- `is_listener`. -/
  isListener : Bool
  /-- The connections. -/
  conns : ℕ → Endpoint := fun _ => {}
  /-- `peers`: the names of the remote ports with the connections. -/
  peers : List (ℕ × ℕ) := []
  /-- The receive thread. -/
  recv : RecvPc := .notStarted

/-- Change one connection. -/
def Machine.modify (m : Machine) (c : ℕ) (f : Endpoint → Endpoint) : Machine :=
  { m with conns := Function.update m.conns c (f (m.conns c)) }

/-- `dispatch_async_f`, or `dispatch_sync_f`, of an event. -/
def Endpoint.dispatch (event : Event) (e : Endpoint) : Endpoint :=
  { e with dispatched := e.dispatched ++ [event] }

/-- A step of one of the threads. -/
inductive Action where
  /-- `xpc_connection_set_event_handler`, with a block or `NULL`. -/
  | setEventHandler (c : ℕ) (block : Bool)
  /-- `xpc_connection_set_event_handler_f`, with a function or `NULL`. -/
  | setEventHandlerF (c : ℕ) (function : Bool)
  /-- `xpc_connection_suspend`. -/
  | suspend (c : ℕ)
  /-- The critical section of `xpc_connection_resume`. -/
  | resume (c : ℕ)
  /-- The critical section of `xpc_connection_cancel`. -/
  | cancel (c : ℕ)
  /-- `xpc_connection_activate` creates the receive thread. -/
  | activate
  /-- `mach_msg` receives a message. -/
  | receive (remoteName : ℕ) (msg : Arrival)
  /-- `mach_msg` fails. -/
  | recvFails
  /-- The next stretch of the receive thread. -/
  | advance

/-- Where the receive thread goes with a message: `find_or_create_peer` for a listener. -/
def target (m : Machine) (remoteName : ℕ) (msg : Arrival) : Machine :=
  if m.isListener then
    match m.peers.find? fun pe => pe.1 = remoteName with
    | some pe => { m with recv := .routing pe.2 msg }
    | none =>
      let c := m.peers.length + 1
      { m with peers := (remoteName, c) :: m.peers, recv := .accepting c msg }
  else { m with recv := .routing 0 msg }

/-- The stretches of the receive thread between two calls of `mach_msg`, and behind the last. -/
def advance (m : Machine) : Option Machine :=
  match m.recv with
  | .accepting c msg =>
    let m := if (m.conns 0).installed then m.modify 0 (Endpoint.dispatch (.peer c)) else m
    some { m with recv := .routing c msg }
  | .routing c msg =>
    match (routeIncoming msg).delivery with
    | .completePending _ _ => some { m with recv := .receiving }
    | .deliverEvent event _ => some { m with recv := .gate c event false }
  | .gate c event last =>
    -- the wait on `resume_cond`
    if 0 < (m.conns c).suspendCount ∧ (m.conns c).cancelled = false then none
    else some { m with recv := .passed c event (m.conns c).cancelled last }
  | .passed c event cancelled last =>
    let m :=
      if cancelled || !(m.conns c).installed then m
      else m.modify c (Endpoint.dispatch (.message event))
    some { m with recv := if last then .ended else .receiving }
  | .stopped =>
    let m := m.modify 0 fun e => { e with cancelled := true }
    some { m with recv := .marked }
  | .marked => some { m with recv := .drained }
  | .drained =>
    if (m.conns 0).installed then some { m with recv := .gate 0 connectionInvalid true }
    else some { m with recv := .ended }
  | .notStarted | .receiving | .ended => none

/-- One step of one thread. -/
def step (m : Machine) : Action → Option Machine
  | .setEventHandler c block =>
    some (m.modify c fun e => { e with handler := block, handlerF := false })
  | .setEventHandlerF c function =>
    some (m.modify c fun e => { e with handler := false, handlerF := function })
  | .suspend c => some (m.modify c fun e => { e with suspendCount := e.suspendCount + 1 })
  | .resume c => some (m.modify c fun e => { e with suspendCount := e.suspendCount - 1 })
  | .cancel c => some (m.modify c fun e => { e with cancelled := true })
  | .activate =>
    match m.recv with
    | .notStarted => some { m with recv := .receiving }
    | _ => none
  | .receive remoteName msg =>
    match m.recv with
    | .receiving => some (target m remoteName msg)
    | _ => none
  | .recvFails =>
    match m.recv with
    | .receiving => some { m with recv := .stopped }
    | _ => none
  | .advance => advance m

/-- The run of a schedule from a connection that is not activated. -/
def run (isListener : Bool) (as : List Action) : Option Machine :=
  exec step { isListener := isListener } as

/-- `XPC_ERROR_CONNECTION_INVALID` was dispatched once, and nothing after it. -/
def Reported (dispatched : List Event) : Prop :=
  ∃ earlier, dispatched = earlier ++ [Event.message connectionInvalid] ∧
    .message connectionInvalid ∉ earlier

/-! ## What a step can do -/

section

variable {m m' : Machine} {a : Action} {c d : ℕ} {event : XpcObject} {last : Bool}

/-- A changed connection, and the others. -/
@[simp] lemma Machine.conns_modify (f : Endpoint → Endpoint) :
    (m.modify c f).conns d = if d = c then f (m.conns c) else m.conns d := by
  simp [Machine.modify, Function.update_apply]

/-- The event that the receive thread has yet to deliver. -/
def RecvPc.holds : RecvPc → Option XpcObject
  | .gate _ event false | .passed _ event _ false => some event
  | .notStarted | .receiving | .accepting _ _ | .routing _ _ | .gate _ _ true => none
  | .passed _ _ _ true | .stopped | .marked | .drained | .ended => none

/-- The receive thread has set `cancelled`. -/
def RecvPc.closing : RecvPc → Bool
  | .gate _ _ last | .passed _ _ _ last => last
  | .marked | .drained | .ended => true
  | .notStarted | .receiving | .accepting _ _ | .routing _ _ | .stopped => false

/-- An event that it will drop is not held. -/
def RecvPc.drops : RecvPc → Bool
  | .passed _ _ cancelled true => cancelled
  | .gate c _ true => c = 0
  | .notStarted | .receiving | .accepting _ _ | .routing _ _ | .gate _ _ false => true
  | .passed _ _ _ false | .stopped | .marked | .drained | .ended => true

/-- No invalid event was dispatched, and none will be. -/
structure Silent (m : Machine) : Prop where
  /-- None was dispatched. -/
  dispatched : ∀ c, .message connectionInvalid ∉ (m.conns c).dispatched
  /-- An event from a message is no error. -/
  ordinary : m.recv.holds ≠ some connectionInvalid
  /-- The flag was set before the last event. -/
  cancelled : m.recv.closing = true → (m.conns 0).cancelled = true
  /-- The last event is for the connection of the thread, and will be dropped. -/
  drops : m.recv.drops = true

/-- Other threads set flags and counts. -/
lemma Silent.modify (h : Silent m) {f : Endpoint → Endpoint}
    (hd : ∀ e, (f e).dispatched = e.dispatched)
    (hc : ∀ e, e.cancelled = true → (f e).cancelled = true) : Silent (m.modify c f) where
  dispatched d := by
    rw [Machine.conns_modify]
    split
    · rw [hd]
      exact h.dispatched c
    · exact h.dispatched d
  ordinary := h.ordinary
  cancelled hclosing := by
    have hcancelled := h.cancelled hclosing
    rw [Machine.conns_modify]
    split
    · next h0 =>
      rw [← h0]
      exact hc _ hcancelled
    · exact hcancelled
  drops := h.drops

/-- An event that is no error is dispatched. -/
lemma Silent.dispatch (h : Silent m) {e : Event} (he : e ≠ .message connectionInvalid) :
    Silent (m.modify c (Endpoint.dispatch e)) where
  dispatched d := by
    rw [Machine.conns_modify]
    split
    · simp only [Endpoint.dispatch, List.mem_append, List.mem_singleton, not_or]
      exact ⟨h.dispatched c, he.symm⟩
    · exact h.dispatched d
  ordinary := h.ordinary
  cancelled hclosing := by
    have hcancelled := h.cancelled hclosing
    rw [Machine.conns_modify]
    split
    · next h0 =>
      rw [← h0]
      exact hcancelled
    · exact hcancelled
  drops := h.drops

/-- The receive thread moves on to a place where it holds no error. -/
lemma Silent.goto (h : Silent m) {pc : RecvPc} (hholds : pc.holds ≠ some connectionInvalid)
    (hclosing : pc.closing = true → (m.conns 0).cancelled = true) (hdrops : pc.drops = true) :
    Silent { m with recv := pc } where
  dispatched := h.dispatched
  ordinary := hholds
  cancelled := hclosing
  drops := hdrops

/-- What a message decodes to is no error. -/
lemma event_ne {msg : Arrival} {assocMsgid : Option UInt64}
    (h : (routeIncoming msg).delivery = .deliverEvent event assocMsgid) :
    event ≠ connectionInvalid := by
  have hevent : event = orNull (xpcDeserialize msg.payload) := by
    simp only [routeIncoming] at h
    split at h
    · cases h
    · exact (Delivery.deliverEvent.inj h).1.symm
  rw [hevent]
  exact orNull_ne_connectionInvalid msg.payload

/-- Between two messages and behind the last one, the receive thread stays silent. -/
lemma Silent.advance (h : Silent m) (hs : advance m = some m') : Silent m' := by
  unfold Events.advance at hs
  split at hs
  · next c msg hrecv =>
    cases hs
    refine Silent.goto ?_ (by simp [RecvPc.holds]) (by simp [RecvPc.closing]) rfl
    split
    · exact h.dispatch (by simp)
    · exact h
  · next c msg hrecv =>
    split at hs
    · cases hs
      exact h.goto (by simp [RecvPc.holds]) (by simp [RecvPc.closing]) rfl
    · next event _ hroute =>
      cases hs
      refine h.goto ?_ (by simp [RecvPc.closing]) rfl
      simpa [RecvPc.holds] using event_ne hroute
  · next c event last hrecv =>
    split at hs
    · cases hs
    · cases hs
      have hordinary := h.ordinary
      have hcancelled := h.cancelled
      have hdrops := h.drops
      rw [hrecv] at hordinary hcancelled hdrops
      cases last with
      | false => exact h.goto hordinary hcancelled rfl
      | true =>
        obtain rfl : c = 0 := by simpa [RecvPc.drops] using hdrops
        refine h.goto (by simp [RecvPc.holds]) hcancelled ?_
        simpa [RecvPc.drops] using hcancelled rfl
  · next c event cancelled last hrecv =>
    have hordinary := h.ordinary
    have hcancelled := h.cancelled
    have hdrops := h.drops
    rw [hrecv] at hordinary hcancelled hdrops
    cases hs
    cases last with
    | false =>
      refine Silent.goto ?_ (by simp [RecvPc.holds]) (by simp [RecvPc.closing]) rfl
      split
      · exact h
      · refine h.dispatch ?_
        simpa [RecvPc.holds] using hordinary
    | true =>
      obtain rfl : cancelled = true := hdrops
      simp only [Bool.true_or, if_true]
      exact h.goto (by simp [RecvPc.holds]) hcancelled rfl
  · next hrecv =>
    cases hs
    have hmarked : Silent (m.modify 0 fun e => { e with cancelled := true }) :=
      h.modify (fun _ => rfl) fun _ _ => rfl
    have hholds : RecvPc.marked.holds ≠ some connectionInvalid := by simp [RecvPc.holds]
    exact hmarked.goto hholds (by simp) rfl
  · next hrecv =>
    cases hs
    have hcancelled := h.cancelled
    rw [hrecv] at hcancelled
    exact h.goto (by simp [RecvPc.holds]) hcancelled rfl
  · next hrecv =>
    have hcancelled := h.cancelled
    rw [hrecv] at hcancelled
    split at hs
    · cases hs
      exact h.goto (by simp [RecvPc.holds]) hcancelled (by simp [RecvPc.drops])
    · cases hs
      exact h.goto (by simp [RecvPc.holds]) hcancelled rfl
  · cases hs
  · cases hs
  · cases hs

/-- **Every step is silent.** -/
lemma Silent.step (h : Silent m) (hs : step m a = some m') : Silent m' := by
  cases a with
  | setEventHandler c block =>
    cases hs
    exact h.modify (fun _ => rfl) fun _ => id
  | setEventHandlerF c function =>
    cases hs
    exact h.modify (fun _ => rfl) fun _ => id
  | suspend c =>
    cases hs
    exact h.modify (fun _ => rfl) fun _ => id
  | resume c =>
    cases hs
    exact h.modify (fun _ => rfl) fun _ => id
  | cancel c =>
    cases hs
    exact h.modify (fun _ => rfl) fun _ _ => rfl
  | activate =>
    simp only [Events.step] at hs
    split at hs
    · cases hs
      exact h.goto (by simp [RecvPc.holds]) (by simp [RecvPc.closing]) rfl
    · cases hs
  | receive remoteName msg =>
    simp only [Events.step] at hs
    split at hs
    · cases hs
      unfold target
      split
      · split
        · exact h.goto (by simp [RecvPc.holds]) (by simp [RecvPc.closing]) rfl
        · exact ⟨h.dispatched, by simp [RecvPc.holds], by simp [RecvPc.closing], rfl⟩
      · exact h.goto (by simp [RecvPc.holds]) (by simp [RecvPc.closing]) rfl
    · cases hs
  | recvFails =>
    simp only [Events.step] at hs
    split at hs
    · cases hs
      exact h.goto (by simp [RecvPc.holds]) (by simp [RecvPc.closing]) rfl
    · cases hs
  | advance => exact h.advance hs

end

/-! ## Runs -/

section

variable {isListener : Bool} {as : List Action} {m : Machine}

/-- No run dispatches an invalid event to any connection. -/
lemma silent_run (h : run isListener as = some m) : Silent m := by
  refine Transition.invariant (P := Silent) (fun m a m' hm ha => hm.step ha) ?_ h
  exact ⟨fun c => by simp, by simp [RecvPc.holds], by simp [RecvPc.closing], rfl⟩

/-- **The death of a connection is never reported**, in any run, for a listener or not: when the
receive thread has left its loop, however events, handlers, suspending, resuming and cancelling went
before, no invalid event was dispatched, and none will be.

**Proof sketch.** The thread sets `cancelled` before it delivers the event, nothing resets the flag,
and `deliver_event` drops what it is given while the flag is set. -/
theorem not_reported (h : run isListener as = some m) : ¬Reported (m.conns 0).dispatched := by
  rintro ⟨earlier, heq, -⟩
  refine (silent_run h).dispatched 0 ?_
  rw [heq]
  exact List.mem_append_right _ (List.mem_singleton_self _)

end

/-- A connection with a handler whose port dies. -/
def portDies : List Action :=
  [.setEventHandler 0 true, .activate, .recvFails, .advance, .advance, .advance, .advance, .advance]

/-- Nothing is reported. -/
theorem not_reported_portDies :
    ∃ m, run false portDies = some m ∧ m.recv = .ended ∧ ¬Reported (m.conns 0).dispatched :=
  ⟨_, rfl, rfl, not_reported (show run false portDies = some _ from rfl)⟩

/-- **Not every death is reported**: the handler is installed and the thread has ended. -/
theorem not_reported_installed :
    ¬∀ isListener as m, run isListener as = some m → (m.conns 0).installed = true →
      m.recv = .ended → Reported (m.conns 0).dispatched := by
  intro h
  have hrun : (run false portDies).map (fun m => (m.conns 0).installed) = some true := by decide
  obtain ⟨m, hm, hinstalled⟩ := Option.map_eq_some_iff.mp hrun
  have hend : m.recv = .ended := by
    cases hm
    rfl
  exact not_reported hm (h false portDies m hm hinstalled hend)

end Asteros.Xpc.Events
