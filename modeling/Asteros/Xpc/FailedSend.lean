import Asteros.Xpc.Teardown

set_option autoImplicit false

/-!
# Requests that cannot be sent

A send function puts its entry on the pending list and only then calls `send_wire`, which returns
nothing: whether the graph was too large or of a kind that has no encoding, or `mach_msg` refused
the message, the send function goes on as if the request were on its way. The entry stays on the
list and waits for a reply to a message that nobody got. Only the end of the connection helps: an
entry that `fail_all_pending` took before the message failed is completed with an error.

## Main definitions

* `sendWireEnd`, `sendCall` — how `send_wire` ends, and the step of a send function that calls it.
* `LeavesNoTrace` — the entry is off the list and its caller gets an error.
* `TakenDown` — `fail_all_pending` has taken the entry.

## Main results

* `leavesNoTrace_iff` — a request that cannot be sent leaves no trace exactly if its entry was taken
  before.
-/

namespace Asteros.Xpc

open Asteros.Libc LittleEndian

attribute [local grind =] Request.completions Request.touch Request.free

/-- What `send_wire` finds: the memory of its message, the ports of the connection, and what
`mach_msg` will return. -/
structure SendEnv where
  /-- The stack before the message is filled in. -/
  stale : ℕ → UInt8
  /-- `cd->remote_port`. -/
  remotePort : ℕ
  /-- `cd->local_port`. -/
  localPort : ℕ
  /-- The result of `mach_msg`; 0 is `KERN_SUCCESS`. -/
  kr : ℕ

/-- How `send_wire` ends. It returns nothing, and prints a line in the first two cases. -/
inductive SendWireEnd where
  /-- `xpc_serialize` has failed. -/
  | tooLarge
  /-- `mach_msg` has failed. -/
  | sendFailed (kr : ℕ)
  /-- The message is with the kernel. -/
  | sent (msg : List UInt8)

/-- `send_wire` has failed. -/
def SendWireEnd.failed : SendWireEnd → Bool
  | .tooLarge | .sendFailed _ => true
  | .sent _ => false

/-- `send_wire`. -/
def sendWireEnd (e : SendEnv) (msgid : UInt64) (isReply : Bool) (message : XpcObject) :
    SendWireEnd :=
  match sendWire e.stale e.remotePort e.localPort msgid isReply message with
  | none => .tooLarge
  | some msg => if e.kr ≠ 0 then .sendFailed e.kr else .sent msg

/-- A send function reads `p->msgid`, calls `send_wire` and goes on. -/
def sendCall (e : SendEnv) (message : XpcObject) (s : Conn) (i : ℕ) :
    Option (Conn × SendWireEnd) :=
  (step s (.send i)).map fun t => (t, sendWireEnd e (s.reqs i).msgid false message)

/-- The caller gets an error, or `fail_all_pending` is about to complete its entry with one. -/
def Failed (s : Conn) (i : ℕ) : Prop :=
  s.recv.drained = true ∧ i ∈ s.recv.hand ∨ (s.reqs i).result = some connectionInvalid ∨
    connectionInvalid ∈ (s.reqs i).dispatched

/-- The request is not left registered, and its caller gets an error. -/
def LeavesNoTrace (s : Conn) (i : ℕ) : Prop := i ∉ s.pending ∧ Failed s i

/-- In the run, `fail_all_pending` has taken the list with the entry on it. -/
def TakenDown (as : List Action) (i : ℕ) : Prop :=
  ∃ pre post s, as = pre ++ Action.drain :: post ∧ run pre = some s ∧ i ∈ s.pending

section

variable {s s' t : Conn} {as : List Action} {a : Action} {i : ℕ} {v : XpcObject}

/-! ## Errors come from the end of the connection -/

/-- What a reply brought is no error. -/
lemma FromReply.ne_connectionInvalid (h : FromReply s i v) : v ≠ connectionInvalid := by
  obtain ⟨-, msg, -, -, -, hv⟩ := h
  rw [hv]
  exact orNull_ne_connectionInvalid msg.payload

/-- What was taken stays so. -/
lemma TakenDown.append (h : TakenDown as i) (bs : List Action) : TakenDown (as ++ bs) i := by
  obtain ⟨pre, post, s, rfl, hs, hi⟩ := h
  exact ⟨pre, post ++ bs, s, by simp, hs, hi⟩

/-- An action that is not `drain` takes nothing. -/
lemma takenDown_append_singleton (ha : a ≠ .drain) :
    TakenDown (as ++ [a]) i ↔ TakenDown as i := by
  refine ⟨?_, fun h => h.append [a]⟩
  rintro ⟨pre, post, s, heq, hs, hi⟩
  induction post using List.reverseRecOn with
  | nil =>
    obtain ⟨-, hlast⟩ := List.append_inj' heq rfl
    cases hlast
    exact absurd rfl ha
  | append_singleton post b _ =>
    rw [← List.cons_append, ← List.append_assoc] at heq
    obtain ⟨rfl, -⟩ := List.append_inj' heq rfl
    exact ⟨pre, post, s, rfl, hs, hi⟩

/-- A step other than `drain` fails no entry anew. -/
lemma failed_of_step (hv : ∀ v, s.recv.reply = some (i, v) → v ≠ connectionInvalid)
    (hs : Step s a s') (ha : a ≠ .drain) (h : Failed s' i) : Failed s i := by
  rw [Failed] at h ⊢
  cases hs <;> grind

/-- The entry was taken by `fail_all_pending`. -/
@[grind] structure Down (s : Conn) (i : ℕ) : Prop where
  /-- The list was taken. -/
  drained : s.recv.drained = true
  /-- The entry was on it. -/
  pushed : (s.reqs i).pc.hasPushed = true
  /-- It is off the list. -/
  listed : i ∉ s.pending
  /-- It is completed with an error, or will be. -/
  failed : Failed s i
  /-- The result is set before the semaphore is signalled. -/
  result : ∀ rest, s.recv = .drainSet i rest → (s.reqs i).result = some connectionInvalid

/-- Taking the list takes its entries. -/
lemma down_of_drain (ht : Tokens s) (hs : Step s .drain s') (hi : i ∈ s.pending) : Down s' i := by
  have hpushed := (ht.of_mem (Or.inl hi)).1
  cases hs with
  | drain hrecv =>
    exact ⟨rfl, hpushed, List.not_mem_nil, Or.inl ⟨rfl, hi⟩, fun rest h => by cases h⟩

/-- What was taken is not put on the list again, and its error stays. -/
lemma Down.step (h : Down s i) (hs : Step s a s') : Down s' i := by
  obtain ⟨hdrained, hpushed, hlisted, hfailed, hresult⟩ := h
  rw [Failed] at hfailed
  refine ⟨(drained_step hs hdrained).1, ?_, ?_, ?_, ?_⟩
  · cases hs <;> grind
  · cases hs <;> grind
  · rw [Failed]
    cases hs <;> grind
  · cases hs <;> grind

/-- **What was taken in a run** is off the list, and its caller gets an error. -/
lemma down_run (h : run as = some s) (hdown : TakenDown as i) : Down s i := by
  obtain ⟨pre, post, u, rfl, hu, hi⟩ := hdown
  obtain ⟨u', hu', hpost⟩ := Transition.exec_append.mp h
  obtain rfl : u = u' := Option.some.inj (hu.symm.trans hu')
  obtain ⟨v, hv, hrest⟩ := Transition.exec_cons hpost
  exact Transition.invariant (P := fun s => Down s i) (fun _ _ _ hs ha => hs.step (Step.of_step ha))
    (down_of_drain (tokens_run hu) (Step.of_step hv) hi) hrest

/-- **An error in a run** comes from the entry having been taken. -/
lemma takenDown_run (h : run as = some s) : Failed s i → TakenDown as i := by
  have hall : run as = some s ∧ ∀ i, Failed s i → TakenDown as i := by
    refine Transition.trace_invariant
      (P := fun as s => run as = some s ∧ ∀ i, Failed s i → TakenDown as i) ⟨rfl, ?_⟩ ?_ h
    · intro i hi
      rw [Failed] at hi
      simp [RecvPc.drained] at hi
    · rintro as a s s' ⟨hrun, ih⟩ ha
      have hs := Step.of_step ha
      refine ⟨Transition.exec_append.mpr ⟨s, hrun, ?_⟩, fun i hi => ?_⟩
      · rw [Transition.exec, ha]
        rfl
      · by_cases hdrain : a = .drain
        · subst hdrain
          by_cases hmem : i ∈ s.pending
          · exact ⟨as, [], s, rfl, hrun, hmem⟩
          · refine (ih i ?_).append [.drain]
            rw [Failed] at hi ⊢
            cases hs
            grind
        · refine (ih i (failed_of_step (fun v hv => ?_) hs hdrain hi)).append [a]
          exact ((values_run hrun).reply i v hv).ne_connectionInvalid
  exact hall.2 i

/-! ## Failing sends -/

/-- **A request that cannot be sent leaves no trace exactly if `fail_all_pending` took its entry
before**: in every run, with every message and however `send_wire` fails.

**Proof sketch.** The failure changes nothing. What was taken is off the list and completed with an
error, or about to be; and no other step completes an entry with an error. -/
theorem leavesNoTrace_iff {e : SendEnv} {message : XpcObject} {r : SendWireEnd}
    (h : run as = some s) (hsend : sendCall e message s i = some (t, r)) (_hfail : r.failed = true) :
    LeavesNoTrace t i ↔ TakenDown as i := by
  obtain ⟨t', ht', heq⟩ := Option.map_eq_some_iff.mp hsend
  cases heq
  have hrun : run (as ++ [Action.send i]) = some t := by
    refine Transition.exec_append.mpr ⟨s, h, ?_⟩
    rw [Transition.exec, ht']
    rfl
  rw [← takenDown_append_singleton (a := .send i) (by simp)]
  constructor
  · rintro ⟨-, hfailed⟩
    exact takenDown_run hrun hfailed
  · intro hdown
    have := down_run hrun hdown
    exact ⟨this.listed, this.failed⟩

/-- The steps of a call up to its send, with no other thread in between. -/
def callSteps (i : ℕ) (sync : Bool) : List Action := [.start i sync, .takeId i, .push i]

end

/-- Memory and ports of which nothing depends, and a kernel that takes every message. -/
def quietEnv : SendEnv where
  stale _ := 0
  remotePort := 1
  localPort := 2
  kr := 0

/-- The connection dies between the push of a request and its `send_wire`. -/
def diesBeforeSend : List Action :=
  [.start 0 false, .takeId 0, .push 0, .recvFails, .markCancelled, .drain]

/-- Its message is an error object, and cannot be sent; its caller is failed with the others. -/
theorem leavesNoTrace_iff_diesBeforeSend : ∃ t r,
    sendCall quietEnv connectionInvalid ((run diesBeforeSend).getD {}) 0 = some (t, r) ∧
      r.failed = true ∧ (LeavesNoTrace t 0 ↔ TakenDown diesBeforeSend 0) := by
  refine ⟨_, _, rfl, rfl, ?_⟩
  have hrun : run diesBeforeSend = some ((run diesBeforeSend).getD {}) := rfl
  exact leavesNoTrace_iff hrun
    (show sendCall quietEnv connectionInvalid _ 0 = some _ from rfl) rfl

/-- **A request that cannot be sent stays on the list**: a synchronous call with a connection object
for a message. -/
theorem not_leavesNoTrace_connection :
    ¬∀ as s t i e message r, run as = some s → sendCall e message s i = some (t, r) →
      r.failed = true → LeavesNoTrace t i := by
  intro h
  have hno := h (callSteps 0 true) _ _ 0 quietEnv (.connection 0) _ rfl rfl rfl
  exact hno.1 List.mem_cons_self

end Asteros.Xpc
