import Asteros.Lib.Transition
import Asteros.Xpc.WireMessage

set_option autoImplicit false

/-!
# A connection and its callers

One connection of `xpc_connection.c`: any number of threads inside
`xpc_connection_send_message_with_reply` and `xpc_connection_send_message_with_reply_sync`, and
the receive thread, which completes their requests as replies come in and fails what is left when
its port dies. Every step is one critical section, or one stretch of a thread's code that only
touches memory in ways another thread could observe or spoil: a read or write of a
`struct xpc_pending`, a signal, a dispatch, a `free`.

A request is named by the call that allocated it, so that two allocations at one address stay
apart. The fields after `result` are not in the source: they record what happened to the entry.
The singly linked list of pending entries is a list here, head first.

## Main definitions

* `Request`, `Conn` — an entry with its call, and a connection.
* `Action`, `step` — the steps of all threads.

## Main results

* `Step.of_step` — what each step can do, one case for each stretch of code.
-/

namespace Asteros.Xpc

open Asteros.Libc

/-- `XPC_ERROR_CONNECTION_INVALID`. -/
def connectionInvalid : XpcObject :=
  .error ⟨"Connection invalid".toList.map fun c => UInt8.ofNat c.toNat, by decide⟩

/-- Where a call of one of the two send functions is. -/
inductive CallPc where
  /-- Not called yet. -/
  | idle
  /-- `p` is allocated. -/
  | allocated
  /-- `p->msgid` is set. -/
  | numbered
  /-- `p` is on the pending list. -/
  | pushed
  /-- The message is sent; only a synchronous call goes on from here. -/
  | sent
  /-- Inside `dispatch_semaphore_wait`. -/
  | waiting
  /-- The wait is over. -/
  | woken
  /-- `p->result` is read. -/
  | finishing
  /-- The call has returned. -/
  | returned
  deriving DecidableEq

/-- `struct xpc_pending` together with the call that allocated it. -/
structure Request where
  /-- There is a semaphore: the call is synchronous. -/
  sync : Bool := false
  /-- Where the call is. -/
  pc : CallPc := .idle
  /-- `msgid`. -/
  msgid : UInt64 := 0
  /-- `result`. -/
  result : Option XpcObject := none
  /-- The value of the semaphore. -/
  permits : ℕ := 0
  /-- What a synchronous call read out of `result`. -/
  outcome : Option XpcObject := none
  /-- How often the semaphore was signalled. -/
  signals : ℕ := 0
  /-- The values the reply block was dispatched with. -/
  dispatched : List XpcObject := []
  /-- How often the entry was freed. -/
  frees : ℕ := 0
  /-- The entry was accessed after it had been freed. -/
  readAfterFree : Bool := false

namespace Request

/-- An access to the entry. -/
def touch (r : Request) : Request :=
  { r with readAfterFree := r.readAfterFree || decide (r.frees ≠ 0) }

/-- `free(p)`. -/
def free (r : Request) : Request := { r with frees := r.frees + 1 }

/-- How often the request was completed. -/
def completions (r : Request) : ℕ := r.signals + r.dispatched.length

end Request

/-- Where the receive thread is. -/
inductive RecvPc where
  /-- In `mach_msg`, or between messages. -/
  | receiving
  /-- `complete_pending` has unlinked an entry, to be completed with a value. -/
  | found (i : ℕ) (result : XpcObject)
  /-- It has set the entry's result. -/
  | resultSet (i : ℕ)
  /-- It has freed the entry. -/
  | freed (i : ℕ) (result : XpcObject)
  /-- `mach_msg` has failed; the loop is left. -/
  | stopped
  /-- `cancelled` is set. -/
  | marked
  /-- `fail_all_pending` has taken the list; these entries are left of it. -/
  | draining (rest : List ℕ)
  /-- It has set the result of the entry before them. -/
  | drainSet (i : ℕ) (rest : List ℕ)
  /-- It has signalled that entry. -/
  | drainSignalled (i : ℕ) (rest : List ℕ)
  /-- It has freed an asynchronous entry before them. -/
  | drainFreed (i : ℕ) (rest : List ℕ)
  /-- The thread has ended. -/
  | ended

/-- A connection. -/
structure Conn where
  /-- `next_msgid`. -/
  nextMsgid : UInt64 := 0
  /-- `pending`. -/
  pending : List ℕ := []
  /-- `cancelled`. -/
  cancelled : Bool := false
  /-- The calls and their entries. -/
  reqs : ℕ → Request := fun _ => {}
  /-- The receive thread. -/
  recv : RecvPc := .receiving
  /-- The messages received so far, latest first. -/
  received : List Arrival := []

/-- Change one request. -/
def Conn.modify (s : Conn) (i : ℕ) (f : Request → Request) : Conn :=
  { s with reqs := Function.update s.reqs i (f (s.reqs i)) }

/-- A step of one of the threads. -/
inductive Action where
  /-- A send function is called and allocates its entry. -/
  | start (i : ℕ) (sync : Bool)
  /-- Its first critical section: take an id. -/
  | takeId (i : ℕ)
  /-- Its second critical section: put the entry on the list. -/
  | push (i : ℕ)
  /-- It reads `p->msgid` and sends the message. -/
  | send (i : ℕ)
  /-- It reads `p->sem` and starts to wait. -/
  | wait (i : ℕ)
  /-- The wait ends. -/
  | wake (i : ℕ)
  /-- It releases `p->sem` and reads `p->result`. -/
  | readResult (i : ℕ)
  /-- It frees the entry and returns. -/
  | freeEntry (i : ℕ)
  /-- The receive thread gets a message, up to the end of the critical section of
  `complete_pending`. -/
  | receive (msg : Arrival)
  /-- `mach_msg` fails. -/
  | recvFails
  /-- The receive thread sets `cancelled`. -/
  | markCancelled
  /-- The critical section of `fail_all_pending`. -/
  | drain
  /-- The next stretch of the receive thread outside of these. -/
  | advance
  /-- `xpc_connection_cancel` sets `cancelled`. -/
  | cancel

/-- The critical section of `complete_pending`: unlink the first entry with the id, if any. A
reply that nobody waits for is dropped. -/
def completePending (s : Conn) (msgid : UInt64) (result : XpcObject) : Conn :=
  match s.pending.find? fun i => (s.reqs i).msgid == msgid with
  | none => s
  | some i =>
    { s with
      pending := s.pending.eraseP fun i => (s.reqs i).msgid == msgid
      recv := .found i result }

/-- The routing of a received message, up to the end of the critical section. -/
def route (s : Conn) : Delivery → Conn
  | .completePending msgid result => completePending s msgid result
  | .deliverEvent _ _ => s

/-- The stretches of the receive thread outside its critical sections. -/
def advance (s : Conn) : Option Conn :=
  match s.recv with
  | .found i v =>
    if (s.reqs i).sync then
      some { s.modify i fun r => { r.touch with result := some v } with recv := .resultSet i }
    else some { s.modify i fun r => r.touch.free with recv := .freed i v }
  | .resultSet i =>
    some
      { s.modify i fun r =>
          { r.touch with permits := r.permits + 1, signals := r.signals + 1 } with
        recv := .receiving }
  | .freed i v =>
    some
      { s.modify i fun r => { r with dispatched := v :: r.dispatched } with recv := .receiving }
  | .draining [] => some { s with recv := .ended }
  | .draining (i :: rest) =>
    if (s.reqs i).sync then
      some
        { s.modify i fun r => { r.touch with result := some connectionInvalid } with
          recv := .drainSet i rest }
    else some { s.modify i fun r => r.touch.free with recv := .drainFreed i rest }
  | .drainSet i rest =>
    some
      { s.modify i fun r =>
          { r.touch with permits := r.permits + 1, signals := r.signals + 1 } with
        recv := .drainSignalled i rest }
  | .drainSignalled i rest => some { s.modify i Request.free with recv := .draining rest }
  | .drainFreed i rest =>
    some
      { s.modify i fun r => { r with dispatched := connectionInvalid :: r.dispatched } with
        recv := .draining rest }
  | _ => none

/-- One step of one thread. -/
def step (s : Conn) : Action → Option Conn
  | .start i sync =>
    if (s.reqs i).pc = .idle then some (s.modify i fun r => { r with sync, pc := .allocated })
    else none
  | .takeId i =>
    if (s.reqs i).pc = .allocated then
      let id := s.nextMsgid + 1
      some { s.modify i fun r => { r with msgid := id, pc := .numbered } with nextMsgid := id }
    else none
  | .push i =>
    if (s.reqs i).pc = .numbered then
      some { s.modify i fun r => { r with pc := .pushed } with pending := i :: s.pending }
    else none
  | .send i =>
    if (s.reqs i).pc = .pushed then
      some (s.modify i fun r => { r.touch with pc := if r.sync then .sent else .returned })
    else none
  | .wait i =>
    if (s.reqs i).pc = .sent then some (s.modify i fun r => { r.touch with pc := .waiting })
    else none
  | .wake i =>
    if (s.reqs i).pc = .waiting ∧ (s.reqs i).permits ≠ 0 then
      some (s.modify i fun r => { r with permits := r.permits - 1, pc := .woken })
    else none
  | .readResult i =>
    if (s.reqs i).pc = .woken then
      some (s.modify i fun r => { r.touch with outcome := r.result, pc := .finishing })
    else none
  | .freeEntry i =>
    if (s.reqs i).pc = .finishing then
      some (s.modify i fun r => { r.free with pc := .returned })
    else none
  | .receive msg =>
    match s.recv with
    | .receiving => some (route { s with received := msg :: s.received } (routeIncoming msg).delivery)
    | _ => none
  | .recvFails =>
    match s.recv with
    | .receiving => some { s with recv := .stopped }
    | _ => none
  | .markCancelled =>
    match s.recv with
    | .stopped => some { s with cancelled := true, recv := .marked }
    | _ => none
  | .drain =>
    match s.recv with
    | .marked => some { s with pending := [], recv := .draining s.pending }
    | _ => none
  | .advance => advance s
  | .cancel => some { s with cancelled := true }

/-- The run of a schedule from a fresh connection. -/
def run (as : List Action) : Option Conn := Transition.exec step {} as

/-! ## What a step can do -/

/-- A changed request, and the others. -/
@[simp, grind =] lemma Conn.reqs_modify (s : Conn) (i j : ℕ) (f : Request → Request) :
    (s.modify i f).reqs j = if j = i then f (s.reqs i) else s.reqs j := by
  simp [Conn.modify, Function.update_apply]

/-- Changing a request leaves the rest of the connection alone. -/
@[simp, grind =] lemma Conn.modify_nextMsgid (s : Conn) (i : ℕ) (f : Request → Request) :
    (s.modify i f).nextMsgid = s.nextMsgid := rfl

/-- Changing a request does not change the list. -/
@[simp, grind =] lemma Conn.modify_pending (s : Conn) (i : ℕ) (f : Request → Request) :
    (s.modify i f).pending = s.pending := rfl

/-- Changing a request does not change the flag. -/
@[simp, grind =] lemma Conn.modify_cancelled (s : Conn) (i : ℕ) (f : Request → Request) :
    (s.modify i f).cancelled = s.cancelled := rfl

/-- Changing a request does not move the receive thread. -/
@[simp, grind =] lemma Conn.modify_recv (s : Conn) (i : ℕ) (f : Request → Request) :
    (s.modify i f).recv = s.recv := rfl

/-- Changing a request receives no message. -/
@[simp, grind =] lemma Conn.modify_received (s : Conn) (i : ℕ) (f : Request → Request) :
    (s.modify i f).received = s.received := rfl

/-- The steps of a connection, one constructor for each stretch of code. -/
inductive Step (s : Conn) : Action → Conn → Prop where
  | start {i : ℕ} (sync : Bool) (hpc : (s.reqs i).pc = .idle) :
    Step s (.start i sync) (s.modify i fun r => { r with sync, pc := .allocated })
  | takeId {i : ℕ} (hpc : (s.reqs i).pc = .allocated) :
    Step s (.takeId i)
      { s.modify i fun r => { r with msgid := s.nextMsgid + 1, pc := .numbered } with
        nextMsgid := s.nextMsgid + 1 }
  | push {i : ℕ} (hpc : (s.reqs i).pc = .numbered) :
    Step s (.push i)
      { s.modify i fun r => { r with pc := .pushed } with pending := i :: s.pending }
  | send {i : ℕ} (hpc : (s.reqs i).pc = .pushed) :
    Step s (.send i)
      (s.modify i fun r => { r.touch with pc := if r.sync then .sent else .returned })
  | wait {i : ℕ} (hpc : (s.reqs i).pc = .sent) :
    Step s (.wait i) (s.modify i fun r => { r.touch with pc := .waiting })
  | wake {i : ℕ} (hpc : (s.reqs i).pc = .waiting) (hpermits : (s.reqs i).permits ≠ 0) :
    Step s (.wake i) (s.modify i fun r => { r with permits := r.permits - 1, pc := .woken })
  | readResult {i : ℕ} (hpc : (s.reqs i).pc = .woken) :
    Step s (.readResult i)
      (s.modify i fun r => { r.touch with outcome := r.result, pc := .finishing })
  | freeEntry {i : ℕ} (hpc : (s.reqs i).pc = .finishing) :
    Step s (.freeEntry i) (s.modify i fun r => { r.free with pc := .returned })
  | receiveOther (msg : Arrival) (hrecv : s.recv = .receiving)
    (hother : ∀ msgid v, (routeIncoming msg).delivery = .completePending msgid v →
      ∀ i ∈ s.pending, (s.reqs i).msgid ≠ msgid) :
    Step s (.receive msg) { s with received := msg :: s.received }
  | receiveReply (msg : Arrival) (hrecv : s.recv = .receiving) {i : ℕ} {v : XpcObject}
    (hroute : (routeIncoming msg).delivery = .completePending (s.reqs i).msgid v)
    {front back : List ℕ} (hpending : s.pending = front ++ i :: back) :
    Step s (.receive msg)
      { s with received := msg :: s.received, pending := front ++ back, recv := .found i v }
  | recvFails (hrecv : s.recv = .receiving) : Step s .recvFails { s with recv := .stopped }
  | markCancelled (hrecv : s.recv = .stopped) :
    Step s .markCancelled { s with cancelled := true, recv := .marked }
  | drain (hrecv : s.recv = .marked) :
    Step s .drain { s with pending := [], recv := .draining s.pending }
  | setResult {i : ℕ} {v : XpcObject} (hrecv : s.recv = .found i v)
    (hsync : (s.reqs i).sync = true) :
    Step s .advance
      { s.modify i fun r => { r.touch with result := some v } with recv := .resultSet i }
  | freeAsync {i : ℕ} {v : XpcObject} (hrecv : s.recv = .found i v)
    (hsync : (s.reqs i).sync = false) :
    Step s .advance { s.modify i fun r => r.touch.free with recv := .freed i v }
  | signal {i : ℕ} (hrecv : s.recv = .resultSet i) :
    Step s .advance
      { s.modify i fun r =>
          { r.touch with permits := r.permits + 1, signals := r.signals + 1 } with
        recv := .receiving }
  | dispatch {i : ℕ} {v : XpcObject} (hrecv : s.recv = .freed i v) :
    Step s .advance
      { s.modify i fun r => { r with dispatched := v :: r.dispatched } with recv := .receiving }
  | drainEnd (hrecv : s.recv = .draining []) : Step s .advance { s with recv := .ended }
  | drainSet {i : ℕ} {rest : List ℕ} (hrecv : s.recv = .draining (i :: rest))
    (hsync : (s.reqs i).sync = true) :
    Step s .advance
      { s.modify i fun r => { r.touch with result := some connectionInvalid } with
        recv := .drainSet i rest }
  | drainFreeAsync {i : ℕ} {rest : List ℕ} (hrecv : s.recv = .draining (i :: rest))
    (hsync : (s.reqs i).sync = false) :
    Step s .advance { s.modify i fun r => r.touch.free with recv := .drainFreed i rest }
  | drainSignal {i : ℕ} {rest : List ℕ} (hrecv : s.recv = .drainSet i rest) :
    Step s .advance
      { s.modify i fun r =>
          { r.touch with permits := r.permits + 1, signals := r.signals + 1 } with
        recv := .drainSignalled i rest }
  | drainFree {i : ℕ} {rest : List ℕ} (hrecv : s.recv = .drainSignalled i rest) :
    Step s .advance { s.modify i Request.free with recv := .draining rest }
  | drainDispatch {i : ℕ} {rest : List ℕ} (hrecv : s.recv = .drainFreed i rest) :
    Step s .advance
      { s.modify i fun r => { r with dispatched := connectionInvalid :: r.dispatched } with
        recv := .draining rest }
  | cancel : Step s .cancel { s with cancelled := true }

/-- A received message either completes no request, or unlinks the first with its id. -/
private lemma Step.of_receive {s : Conn} (msg : Arrival) (hrecv : s.recv = .receiving) :
    Step s (.receive msg)
      (route { s with received := msg :: s.received } (routeIncoming msg).delivery) := by
  cases hd : (routeIncoming msg).delivery with
  | deliverEvent event assocMsgid =>
    exact Step.receiveOther msg hrecv fun msgid v h => by rw [hd] at h; cases h
  | completePending msgid v =>
    simp only [route, completePending]
    cases hfind : s.pending.find? fun i => (s.reqs i).msgid == msgid with
    | none =>
      refine Step.receiveOther msg hrecv fun msgid' v' h i hi => ?_
      rw [hd] at h
      cases h
      simpa using List.find?_eq_none.mp hfind i hi
    | some i =>
      have hid : (s.reqs i).msgid = msgid := by simpa using List.find?_some hfind
      obtain ⟨_, front, back, hpending, hfront⟩ := List.find?_eq_some_iff_append.mp hfind
      have herase : s.pending.eraseP (fun i => (s.reqs i).msgid == msgid) = front ++ back := by
        rw [hpending, List.eraseP_append_right _ (by simpa using hfront)]
        simp [hid]
      dsimp only
      rw [herase]
      exact Step.receiveReply msg hrecv (by rw [hd, hid]) hpending

/-- **What a step can do.**

**Proof sketch.** By cases on the action and, for the receive thread, on where it is. -/
theorem Step.of_step {s s' : Conn} {a : Action} (h : step s a = some s') : Step s a s' := by
  cases a with
  | start i sync =>
    simp only [step, Option.ite_none_right_eq_some, Option.some_inj] at h
    obtain ⟨hpc, rfl⟩ := h
    exact Step.start sync hpc
  | takeId i =>
    simp only [step, Option.ite_none_right_eq_some, Option.some_inj] at h
    obtain ⟨hpc, rfl⟩ := h
    exact Step.takeId hpc
  | push i =>
    simp only [step, Option.ite_none_right_eq_some, Option.some_inj] at h
    obtain ⟨hpc, rfl⟩ := h
    exact Step.push hpc
  | send i =>
    simp only [step, Option.ite_none_right_eq_some, Option.some_inj] at h
    obtain ⟨hpc, rfl⟩ := h
    exact Step.send hpc
  | wait i =>
    simp only [step, Option.ite_none_right_eq_some, Option.some_inj] at h
    obtain ⟨hpc, rfl⟩ := h
    exact Step.wait hpc
  | wake i =>
    simp only [step, Option.ite_none_right_eq_some, Option.some_inj] at h
    obtain ⟨⟨hpc, hpermits⟩, rfl⟩ := h
    exact Step.wake hpc hpermits
  | readResult i =>
    simp only [step, Option.ite_none_right_eq_some, Option.some_inj] at h
    obtain ⟨hpc, rfl⟩ := h
    exact Step.readResult hpc
  | freeEntry i =>
    simp only [step, Option.ite_none_right_eq_some, Option.some_inj] at h
    obtain ⟨hpc, rfl⟩ := h
    exact Step.freeEntry hpc
  | receive msg =>
    simp only [step] at h
    split at h
    · next hrecv =>
      cases h
      exact Step.of_receive msg hrecv
    · cases h
  | recvFails =>
    simp only [step] at h
    split at h
    · next hrecv =>
      cases h
      exact Step.recvFails hrecv
    · cases h
  | markCancelled =>
    simp only [step] at h
    split at h
    · next hrecv =>
      cases h
      exact Step.markCancelled hrecv
    · cases h
  | drain =>
    simp only [step] at h
    split at h
    · next hrecv =>
      cases h
      exact Step.drain hrecv
    · cases h
  | advance =>
    simp only [step, advance] at h
    split at h
    · next i v hrecv =>
      split_ifs at h with hsync <;> cases h
      · exact Step.setResult hrecv hsync
      · exact Step.freeAsync hrecv (by simpa using hsync)
    · next i hrecv =>
      cases h
      exact Step.signal hrecv
    · next i v hrecv =>
      cases h
      exact Step.dispatch hrecv
    · next hrecv =>
      cases h
      exact Step.drainEnd hrecv
    · next i rest hrecv =>
      split_ifs at h with hsync <;> cases h
      · exact Step.drainSet hrecv hsync
      · exact Step.drainFreeAsync hrecv (by simpa using hsync)
    · next i rest hrecv =>
      cases h
      exact Step.drainSignal hrecv
    · next i rest hrecv =>
      cases h
      exact Step.drainFree hrecv
    · next i rest hrecv =>
      cases h
      exact Step.drainDispatch hrecv
    · cases h
  | cancel =>
    cases h
    exact Step.cancel

/-- What holds of a fresh connection and is kept by every step holds after every run. -/
lemma invariant {P : Conn → Prop} (hinit : P {})
    (hstep : ∀ s a s', P s → Step s a s' → P s') {as : List Action} {s : Conn}
    (h : run as = some s) : P s :=
  Transition.invariant (fun s a s' hs ha => hstep s a s' hs (Step.of_step ha)) hinit h

/-- What holds of a fresh connection and is kept by every step that meets a condition holds after
every run whose steps meet it. -/
lemma invariant_along {P : Conn → Prop} {C : Conn → Action → Prop} (hinit : P {})
    (hstep : ∀ s a s', P s → C s a → Step s a s' → P s') {as : List Action} {s : Conn}
    (hC : Transition.Along step C {} as) (h : run as = some s) : P s :=
  Transition.invariant_along (fun s a s' hs hc ha => hstep s a s' hs hc (Step.of_step ha)) hinit
    hC h

end Asteros.Xpc
