import Asteros.Xpc.ConnectionLaws

set_option autoImplicit false

/-!
# Replies find their requests

A request takes its id in one critical section and enters the list in another, and replies come
in any order, repeated, unasked for, or never. Still a reply reaches only the request whose id it
carries: ids are handed out in increasing order and do not repeat before `2 ^ 64` of them, and
every value that reaches a caller was brought by a reply with the caller's id, unless the
connection failed.

## Main definitions

* `requests` — the number of ids a schedule hands out.
* `Ids` — the ids handed out are distinct.
* `FromReply` — a value that a reply with the request's own id brought.

## Main results

* `replies_correlate` — ids, completions and results of every run.
-/

namespace Asteros.Xpc

open Asteros.Libc LittleEndian

attribute [local grind =] Request.completions Request.touch Request.free

/-! ## Ids -/

/-- The action takes an id. -/
@[grind] def Action.takesId : Action → Bool
  | .takeId _ => true
  | .start _ _ | .push _ | .send _ | .wait _ | .wake _ | .readResult _ | .freeEntry _ => false
  | .receive _ | .recvFails | .markCancelled | .drain | .advance | .cancel => false

/-- A call takes its id before it pushes its entry. -/
lemma CallPc.hasId_of_hasPushed {pc : CallPc} (h : pc.hasPushed = true) : pc.hasId = true := by
  cases pc <;> grind

/-- The number of ids that a schedule hands out. -/
def requests (as : List Action) : ℕ := as.countP Action.takesId

/-- The ids handed out lie below the counter and are pairwise distinct. -/
structure Ids (s : Conn) : Prop where
  /-- No id is above the counter. -/
  le : ∀ i, (s.reqs i).pc.hasId = true → (s.reqs i).msgid.toNat ≤ s.nextMsgid.toNat
  /-- No two requests have the same id. -/
  inj : ∀ i j, (s.reqs i).pc.hasId = true → (s.reqs j).pc.hasId = true →
    (s.reqs i).msgid = (s.reqs j).msgid → i = j

section

variable {s s' : Conn} {a : Action}

/-- A request that has an id keeps it. -/
lemma msgid_step (hs : Step s a s') {i : ℕ} (hi : (s.reqs i).pc.hasId = true) :
    (s'.reqs i).msgid = (s.reqs i).msgid ∧ (s'.reqs i).pc.hasId = true := by
  cases hs <;> grind

/-- Only one action changes the counter, or gives an id to a request. -/
lemma nextMsgid_step (hs : Step s a s') (ha : a.takesId = false) :
    s'.nextMsgid = s.nextMsgid ∧
      ∀ i, (s'.reqs i).pc.hasId = true → (s.reqs i).pc.hasId = true := by
  cases hs <;> grind

/-- A step keeps the ids distinct, unless the counter wraps. -/
lemma ids_step (h : Ids s) (hs : Step s a s')
    (hlt : a.takesId = true → s.nextMsgid.toNat + 1 < 2 ^ 64) :
    Ids s' ∧ s'.nextMsgid.toNat = s.nextMsgid.toNat + if a.takesId then 1 else 0 := by
  cases ha : a.takesId with
  | false =>
    obtain ⟨hnext, hids⟩ := nextMsgid_step hs ha
    have hmsgid := fun i hi => (msgid_step hs (hids i hi)).1
    refine ⟨⟨fun i hi => ?_, fun i j hi hj hij => ?_⟩, by rw [hnext]; rfl⟩
    · rw [hnext, hmsgid i hi]
      exact h.le i (hids i hi)
    · rw [hmsgid i hi, hmsgid j hj] at hij
      exact h.inj i j (hids i hi) (hids j hj) hij
  | true =>
    cases hs with
    | @takeId k hpc =>
      have hnew : (s.nextMsgid + 1).toNat = s.nextMsgid.toNat + 1 := by
        rw [UInt64.toNat_add]
        exact Nat.mod_eq_of_lt (hlt rfl)
      -- the new id is above all the others
      have hfresh : ∀ i, i ≠ k → (s.reqs i).pc.hasId = true →
          (s.reqs i).msgid ≠ s.nextMsgid + 1 := by
        intro i _ hi heq
        have hle := h.le i hi
        rw [heq, hnew] at hle
        omega
      have hle := h.le
      have hinj := h.inj
      exact ⟨⟨by grind, by grind⟩, by grind⟩
    | _ => cases ha

end

/-- **Ids do not repeat** in a run that hands out fewer than `2 ^ 64` of them.

**Proof sketch.** Along the run the counter is the number of ids handed out. -/
theorem ids_run {as : List Action} {s : Conn} (h : run as = some s) (hlen : requests as < 2 ^ 64) :
    Ids s := by
  have hboth : requests as < 2 ^ 64 → Ids s ∧ s.nextMsgid.toNat = requests as := by
    refine Transition.trace_invariant
      (P := fun as s => requests as < 2 ^ 64 → Ids s ∧ s.nextMsgid.toNat = requests as) ?_ ?_ h
    · exact fun _ => ⟨⟨by grind, by grind⟩, rfl⟩
    · intro as a t v ih ha hlt
      have hcount : requests (as ++ [a]) = requests as + if a.takesId then 1 else 0 := by
        simp [requests, List.countP_append, List.countP_singleton]
      rw [hcount] at hlt ⊢
      obtain ⟨hids, hnext⟩ := ih (by omega)
      obtain ⟨hids', hnext'⟩ := ids_step hids (Step.of_step ha) (fun ht => by
        rw [ht, if_pos rfl] at hlt
        omega)
      exact ⟨hids', by rw [hnext', hnext]⟩
  exact (hboth hlen).1

/-! ## Values -/

/-- A reply with the request's own id brought the value: it is the decoded payload, or null in
place of one that does not decode. -/
def FromReply (s : Conn) (i : ℕ) (v : XpcObject) : Prop :=
  (s.reqs i).pc.hasId = true ∧ ∃ msg ∈ s.received, msg.isReply = true ∧
    msg.msgId = (s.reqs i).msgid ∧ v = orNull (xpcDeserialize msg.payload)

/-- A message completes a request only if it is a reply, with its own id and its own payload. -/
lemma isReply_of_delivery {msg : Arrival} {msgid : UInt64} {v : XpcObject}
    (h : (routeIncoming msg).delivery = .completePending msgid v) :
    msg.isReply = true ∧ msg.msgId = msgid ∧ v = orNull (xpcDeserialize msg.payload) := by
  simp only [routeIncoming] at h
  split_ifs at h with hreply
  obtain ⟨hmsgid, hv⟩ := Delivery.completePending.inj h
  exact ⟨hreply, hmsgid, hv.symm⟩

/-- No message decodes to an error. -/
lemma orNull_ne_connectionInvalid (b : Buffer) : orNull (xpcDeserialize b) ≠ connectionInvalid := by
  intro h
  have hkind : ∀ w : Wire, w.value ≠ connectionInvalid := by
    intro w hw
    cases w <;> cases hw
  rw [orNull] at h
  rcases hdec : xpcDeserialize b with _ | ⟨_ | o, r⟩
  · rw [hdec] at h
    cases h
  · rw [hdec] at h
    cases h
  · rw [hdec] at h
    obtain ⟨w, -, rfl, -⟩ := exists_wire_of_xpcDeserialize hdec
    exact hkind w h

section

variable {s s' : Conn} {a : Action}

/-- What a reply brought stays so. -/
lemma FromReply.step {i : ℕ} {v : XpcObject} (h : FromReply s i v) (hs : Step s a s') :
    FromReply s' i v := by
  obtain ⟨hid, msg, hmem, hreply, hmsgid, hv⟩ := h
  obtain ⟨hsame, hid'⟩ := msgid_step hs hid
  refine ⟨hid', msg, ?_, hreply, hmsgid.trans hsame.symm, hv⟩
  cases hs <;> grind

end

/-- The entry and the value that the receive thread completes it with, on a reply. -/
@[grind] def RecvPc.reply : RecvPc → Option (ℕ × XpcObject)
  | .found i v | .freed i v => some (i, v)
  | .resultSet _ | .receiving | .stopped | .marked | .ended => none
  | .draining _ | .drainSet _ _ | .drainSignalled _ _ | .drainFreed _ _ => none

/-- The list was taken by `fail_all_pending`. -/
@[grind] def RecvPc.drained : RecvPc → Bool
  | .draining _ | .drainSet _ _ | .drainSignalled _ _ | .drainFreed _ _ | .ended => true
  | .found _ _ | .freed _ _ | .resultSet _ | .receiving | .stopped | .marked => false

/-- The values in a connection came with replies, unless the connection failed. -/
structure Values (failed : Prop) (s : Conn) : Prop where
  /-- The value in the hands of the receive thread. -/
  reply : ∀ i v, s.recv.reply = some (i, v) → FromReply s i v
  /-- The result of an entry. -/
  result : ∀ i v, (s.reqs i).result = some v → FromReply s i v ∨ failed
  /-- What a synchronous call read. -/
  outcome : ∀ i v, (s.reqs i).outcome = some v → FromReply s i v ∨ failed
  /-- What a reply block got. -/
  dispatched : ∀ i, ∀ v ∈ (s.reqs i).dispatched, FromReply s i v ∨ failed
  /-- Only a failed connection has its list taken. -/
  drained : s.recv.drained = true → failed

section

variable {s s' : Conn} {a : Action} {failed : Prop}

/-- Values stay what they are when the connection fails. -/
lemma Values.mono {failed' : Prop} (h : Values failed s) (hle : failed → failed') :
    Values failed' s where
  reply := h.reply
  result i v hv := (h.result i v hv).imp_right hle
  outcome i v hv := (h.outcome i v hv).imp_right hle
  dispatched i v hv := (h.dispatched i v hv).imp_right hle
  drained hd := hle (h.drained hd)

/-- The receive thread holds a value that came with a reply. -/
private lemma replyValue_step (ht : Tokens s)
    (h : ∀ i v, s.recv.reply = some (i, v) → FromReply s i v) (hs : Step s a s') (i : ℕ)
    (v : XpcObject) (hv : s'.recv.reply = some (i, v)) : FromReply s' i v := by
  have hreply := h i v
  have hold := fun hv : FromReply s i v => hv.step hs
  cases hs with
  | receiveReply msg hrecv hroute hpending =>
    obtain ⟨hmsg, hmsgid, hval⟩ := isReply_of_delivery hroute
    cases hv
    have hpushed := (ht.of_mem (i := i) (Or.inl (by rw [hpending]; simp))).1
    exact ⟨CallPc.hasId_of_hasPushed hpushed, msg, by simp, hmsg, hmsgid, hval⟩
  | _ => grind

/-- A result came with a reply, unless the connection failed. -/
private lemma resultValue_step (hreply : ∀ i v, s.recv.reply = some (i, v) → FromReply s i v)
    (h : ∀ i v, (s.reqs i).result = some v → FromReply s i v ∨ failed)
    (hdrained : s.recv.drained = true → failed) (hs : Step s a s') (i : ℕ) (v : XpcObject)
    (hv : (s'.reqs i).result = some v) : FromReply s' i v ∨ failed := by
  have hold := fun hv : FromReply s i v => hv.step hs
  have hreply := hreply i v
  have hresult := h i v
  cases hs <;> grind

/-- A call reads what came with a reply, unless the connection failed. -/
private lemma outcomeValue_step
    (hresult : ∀ i v, (s.reqs i).result = some v → FromReply s i v ∨ failed)
    (h : ∀ i v, (s.reqs i).outcome = some v → FromReply s i v ∨ failed) (hs : Step s a s') (i : ℕ)
    (v : XpcObject) (hv : (s'.reqs i).outcome = some v) : FromReply s' i v ∨ failed := by
  have hold := fun hv : FromReply s i v => hv.step hs
  have hresult := hresult i v
  have houtcome := h i v
  cases hs <;> grind

/-- A reply block gets what came with a reply, unless the connection failed. -/
private lemma dispatchedValue_step
    (hreply : ∀ i v, s.recv.reply = some (i, v) → FromReply s i v)
    (h : ∀ i, ∀ v ∈ (s.reqs i).dispatched, FromReply s i v ∨ failed)
    (hdrained : s.recv.drained = true → failed) (hs : Step s a s') (i : ℕ) (v : XpcObject)
    (hv : v ∈ (s'.reqs i).dispatched) : FromReply s' i v ∨ failed := by
  have hold := fun hv : FromReply s i v => hv.step hs
  have hreply := hreply i v
  have hdispatched := h i v
  cases hs <;> grind

/-- Only `fail_all_pending` takes the list. -/
private lemma failed_step (h : s.recv.drained = true → failed) (hs : Step s a s')
    (hfail : a = .drain → failed) (hd : s'.recv.drained = true) : failed := by
  cases hs <;> grind

/-- Every step passes on values of replies, unless the connection failed before or fails now. -/
lemma values_step (ht : Tokens s) (h : Values failed s) (hs : Step s a s')
    (hfail : a = .drain → failed) : Values failed s' where
  reply := replyValue_step ht h.reply hs
  result := resultValue_step h.reply h.result h.drained hs
  outcome := outcomeValue_step h.result h.outcome hs
  dispatched := dispatchedValue_step h.reply h.dispatched h.drained hs
  drained := failed_step h.drained hs hfail

end

/-- **Values come with replies** in every run, unless the list was taken. -/
theorem values_run {as : List Action} {s : Conn} (h : run as = some s) :
    Values (.drain ∈ as) s := by
  have hboth : Tokens s ∧ Values (.drain ∈ as) s := by
    refine Transition.trace_invariant (P := fun as s => Tokens s ∧ Values (.drain ∈ as) s) ?_ ?_ h
    · exact ⟨fun _ => rfl, by grind, by grind, by grind, by grind, by grind⟩
    · intro as a t v ih ha
      have hs := Step.of_step ha
      refine ⟨tokens_step ih.1 hs, values_step ih.1 (ih.2.mono fun hd => ?_) hs fun hd => ?_⟩
      · exact List.mem_append_left _ hd
      · simp [hd]
  exact hboth.2

/-! ## Correlation -/

section

variable {s s' : Conn}

/-- A message touches no request. It takes at most one entry off the list, one that waits for a
reply with the id of the message. -/
lemma receive_step {msg : Arrival} (h : step s (.receive msg) = some s') :
    s'.reqs = s.reqs ∧
      (∀ i ∈ s.pending, ¬(msg.isReply = true ∧ msg.msgId = (s.reqs i).msgid) → i ∈ s'.pending) ∧
      ((∀ i ∈ s.pending, ¬(msg.isReply = true ∧ msg.msgId = (s.reqs i).msgid)) →
        s' = { s with received := msg :: s.received }) := by
  cases Step.of_step h with
  | receiveOther msg hrecv hother => exact ⟨rfl, fun i hi _ => hi, fun _ => rfl⟩
  | @receiveReply msg hrecv k v hroute front back hpending =>
    obtain ⟨hreply, hmsgid, -⟩ := isReply_of_delivery hroute
    refine ⟨rfl, fun i hi hno => ?_, fun hno => ?_⟩
    · rw [hpending] at hi
      have hik : i ≠ k := by
        rintro rfl
        exact hno ⟨hreply, hmsgid⟩
      simpa [hik] using hi
    · exact absurd ⟨hreply, hmsgid⟩ (hno k (by simp [hpending]))

/-- While the list is not taken, the receive thread touches only the entry it has unlinked. -/
lemma advance_step (hs : Step s .advance s') (hd : s.recv.drained = false) {i : ℕ}
    (hi : i ∉ s.recv.hand) : s'.reqs i = s.reqs i := by
  cases hs <;> grind

end

/-- **Replies find their requests**: in every run of a connection that hands out fewer than
`2 ^ 64` ids, with replies in any order, repeated or unasked for,
* no two requests have the same id;
* a request is completed at most once, the completion under way included;
* a synchronous call returns the decoded payload of a reply with its own id, and so does a reply
  block get it, unless `fail_all_pending` ran;
* a message leaves the requests and every entry that does not wait for it as they are, and one
  that nobody waits for is dropped;
* and the completion of an entry touches no other.

**Proof sketch.** The laws of ids, tokens, kinds, semaphores and values, read at the state the
run has reached. -/
theorem replies_correlate {as : List Action} {s : Conn} (h : run as = some s)
    (hlen : requests as < 2 ^ 64) :
    (∀ i j, (s.reqs i).pc.hasId = true → (s.reqs j).pc.hasId = true →
      (s.reqs i).msgid = (s.reqs j).msgid → i = j) ∧
    (∀ i, s.recv.hand.count i + (s.reqs i).completions ≤ 1) ∧
    (∀ i, (s.reqs i).sync = true → (s.reqs i).pc = .returned →
      ∃ v, (s.reqs i).outcome = some v ∧ (FromReply s i v ∨ .drain ∈ as)) ∧
    (∀ i, ∀ v ∈ (s.reqs i).dispatched, FromReply s i v ∨ .drain ∈ as) ∧
    (∀ msg s', step s (.receive msg) = some s' → s'.reqs = s.reqs ∧
      (∀ i ∈ s.pending, ¬(msg.isReply = true ∧ msg.msgId = (s.reqs i).msgid) → i ∈ s'.pending) ∧
      ((∀ i ∈ s.pending, ¬(msg.isReply = true ∧ msg.msgId = (s.reqs i).msgid)) →
        s' = { s with received := msg :: s.received })) ∧
    (∀ s' i, step s .advance = some s' → .drain ∉ as → i ∉ s.recv.hand →
      s'.reqs i = s.reqs i) := by
  have hids := ids_run h hlen
  have htokens := tokens_run h
  have hsemaphores := semaphores_run h
  have hvalues := values_run h
  refine ⟨hids.inj, fun i => ?_, fun i hsync hpc => ?_, hvalues.dispatched,
    fun msg s' => receive_step, fun s' i hadv hdrain hi => ?_⟩
  · have hi := htokens i
    split_ifs at hi <;> omega
  · obtain ⟨v, hv⟩ := Option.ne_none_iff_exists'.mp (hsemaphores.outcome i hsync (Or.inr hpc))
    exact ⟨v, hv, hvalues.outcome i v hv⟩
  · refine advance_step (Step.of_step hadv) ?_ hi
    rw [← Bool.not_eq_true]
    exact fun hd => hdrain (hvalues.drained hd)

/-- A reply to the first request of a connection, with a null payload. -/
def firstReply : Arrival where
  stale _ := 0
  bytes := List.replicate 24 0 ++ leBytes 8 1 ++ [1, 0, 0, 0] ++ leBytes 4 1 ++ [1]
  trailer := []
  header_le := by decide
  size_le := by decide

/-- A synchronous request, its reply, the same reply again, and the return. -/
def answered : List Action :=
  [.start 0 true, .takeId 0, .push 0, .send 0, .wait 0, .receive firstReply, .advance, .advance,
    .receive firstReply, .wake 0, .readResult 0, .freeEntry 0]

/-- In this run the request has returned, with what its reply brought. -/
theorem replies_correlate_answered :
    ∃ s, run answered = some s ∧ (s.reqs 0).pc = .returned ∧
      ∃ v, (s.reqs 0).outcome = some v ∧ (FromReply s 0 v ∨ .drain ∈ answered) := by
  have hsome : (run answered).map (fun s => ((s.reqs 0).pc, (s.reqs 0).sync)) =
      some (.returned, true) := by decide
  obtain ⟨s, hs, hpc⟩ := Option.map_eq_some_iff.mp hsome
  obtain ⟨hpc, hsync⟩ := Prod.mk.inj hpc
  exact ⟨s, hs, hpc, (replies_correlate hs (by decide)).2.2.1 0 hsync hpc⟩

end Asteros.Xpc
