import Asteros.Xpc.Connection

set_option autoImplicit false

/-!
# Laws of a connection

Three laws that hold of a connection after every run, whatever the threads do. The completion of
a request is a token: from the moment the entry is pushed it is on the pending list, or in the
hands of the receive thread, or spent, and always in one of these places only. The semaphore of a
synchronous request has as many permits as signals that were not waited for. And a request is
either of the synchronous kind or of the asynchronous kind, everywhere.

## Main definitions

* `RecvPc.hand` — the entries the receive thread has yet to complete.
* `Tokens`, `Kinds`, `Semaphores` — the three laws.

## Main results

* `tokens_run`, `kinds_run`, `semaphores_run` — they hold after every run.
-/

namespace Asteros.Xpc

/-- The call has an id. -/
@[grind] def CallPc.hasId : CallPc → Bool
  | .idle | .allocated => false
  | .numbered | .pushed | .sent | .waiting | .woken | .finishing | .returned => true

/-- The call has pushed its entry. -/
@[grind] def CallPc.hasPushed : CallPc → Bool
  | .idle | .allocated | .numbered => false
  | .pushed | .sent | .waiting | .woken | .finishing | .returned => true

/-- The call has been woken. -/
@[grind] def CallPc.hasWoken : CallPc → Bool
  | .idle | .allocated | .numbered | .pushed | .sent | .waiting => false
  | .woken | .finishing | .returned => true

/-- The call is at a place that only a synchronous one reaches. -/
@[grind] def CallPc.onlySync : CallPc → Bool
  | .idle | .allocated | .numbered | .pushed | .returned => false
  | .sent | .waiting | .woken | .finishing => true

/-- The entries that the receive thread has taken off the list and has not completed yet. -/
@[grind] def RecvPc.hand : RecvPc → List ℕ
  | .found i _ | .resultSet i | .freed i _ => [i]
  | .draining rest | .drainSignalled _ rest => rest
  | .drainSet i rest | .drainFreed i rest => i :: rest
  | .receiving | .stopped | .marked | .ended => []

/-- The entry the receive thread treats as synchronous. -/
@[grind] def RecvPc.syncEntry : RecvPc → Option ℕ
  | .resultSet i | .drainSet i _ | .drainSignalled i _ => some i
  | .found _ _ | .freed _ _ | .draining _ | .drainFreed _ _ => none
  | .receiving | .stopped | .marked | .ended => none

/-- The entry the receive thread treats as asynchronous: freed, and not dispatched yet. -/
@[grind] def RecvPc.asyncEntry : RecvPc → Option ℕ
  | .freed i _ | .drainFreed i _ => some i
  | .found _ _ | .resultSet _ | .draining _ | .drainSet _ _ | .drainSignalled _ _ => none
  | .receiving | .stopped | .marked | .ended => none

/-- An entry that is freed and not dispatched yet is still to be completed. -/
lemma RecvPc.mem_hand_of_asyncEntry {r : RecvPc} {i : ℕ} (h : r.asyncEntry = some i) :
    i ∈ r.hand := by
  cases r <;> grind

attribute [local grind =] Request.completions Request.touch Request.free

/-! ## Tokens -/

/-- Every pushed request has one completion: still on the list, in the hands of the receive
thread, or done. -/
def Tokens (s : Conn) : Prop :=
  ∀ j, s.pending.count j + s.recv.hand.count j + (s.reqs j).completions =
    if (s.reqs j).pc.hasPushed then 1 else 0

/-- Every step moves a token or leaves it where it is. -/
lemma tokens_step {s : Conn} {a : Action} {s' : Conn} (h : Tokens s) (hs : Step s a s') :
    Tokens s' := by
  intro j
  have hj := h j
  cases hs with
  | receiveReply msg hrecv hroute hpending =>
    -- the token moves from the list to the hands of the receive thread
    simp only [hrecv, hpending, RecvPc.hand, List.count_append, List.count_cons,
      List.count_nil] at hj ⊢
    omega
  | drain hrecv => simpa [hrecv, RecvPc.hand] using hj
  | _ => grind

/-- **The token law** holds after every run. -/
theorem tokens_run {as : List Action} {s : Conn} (h : run as = some s) : Tokens s := by
  refine invariant ?_ (fun _ _ _ => tokens_step) h
  intro j
  rfl

/-- What is on the list, or in the hands of the receive thread, is pushed and not completed. -/
lemma Tokens.of_mem {s : Conn} (h : Tokens s) {i : ℕ} (hi : i ∈ s.pending ∨ i ∈ s.recv.hand) :
    (s.reqs i).pc.hasPushed = true ∧ (s.reqs i).signals = 0 ∧ (s.reqs i).dispatched = [] := by
  have htoken := h i
  have hpos : 0 < s.pending.count i + s.recv.hand.count i := by
    rcases hi with hi | hi
    · have := List.count_pos_iff.mpr hi
      omega
    · have := List.count_pos_iff.mpr hi
      omega
  rw [Request.completions] at htoken
  split_ifs at htoken with hpushed
  · exact ⟨hpushed, by omega, List.length_eq_zero_iff.mp (by omega)⟩
  · omega

/-- A request that is not pushed is nowhere, and nothing has happened to it. -/
lemma Tokens.of_not_pushed {s : Conn} (h : Tokens s) {i : ℕ}
    (hi : (s.reqs i).pc.hasPushed = false) :
    i ∉ s.pending ∧ i ∉ s.recv.hand ∧ (s.reqs i).signals = 0 ∧ (s.reqs i).dispatched = [] := by
  have htoken := h i
  rw [hi, Request.completions] at htoken
  simp only [Bool.false_eq_true, if_false, Nat.add_eq_zero_iff, List.count_eq_zero,
    List.length_eq_zero_iff] at htoken
  exact ⟨htoken.1.1, htoken.1.2, htoken.2.1, htoken.2.2⟩

/-! ## Kinds -/

/-- A request is treated as the kind it is. -/
structure Kinds (s : Conn) : Prop where
  /-- The law of tokens. -/
  tokens : Tokens s
  /-- What the receive thread treats as synchronous is. -/
  syncEntry : ∀ i, s.recv.syncEntry = some i → (s.reqs i).sync = true ∧ (s.reqs i).pc.hasPushed
  /-- What it treats as asynchronous is. -/
  asyncEntry : ∀ i, s.recv.asyncEntry = some i → (s.reqs i).sync = false
  /-- An asynchronous call does not wait. -/
  onlySync : ∀ i, (s.reqs i).pc.onlySync = true → (s.reqs i).sync = true
  /-- An asynchronous request is never signalled. -/
  signals : ∀ i, (s.reqs i).sync = false → (s.reqs i).signals = 0
  /-- A synchronous request is never dispatched. -/
  dispatched : ∀ i, (s.reqs i).sync = true → (s.reqs i).dispatched = []

section

variable {s s' : Conn} {a : Action}

/-- Only calls of the synchronous kind go on after sending. -/
private lemma onlySync_step (h : ∀ i, (s.reqs i).pc.onlySync = true → (s.reqs i).sync = true)
    (hs : Step s a s') (i : ℕ) (hi : (s'.reqs i).pc.onlySync = true) :
    (s'.reqs i).sync = true := by
  have := h i
  cases hs <;> grind

/-- The receive thread signals only requests of the synchronous kind. -/
private lemma syncEntry_step
    (h : ∀ i, s.recv.syncEntry = some i → (s.reqs i).sync = true ∧ (s.reqs i).pc.hasPushed)
    (hhand : ∀ i ∈ s.recv.hand, (s.reqs i).pc.hasPushed = true) (hs : Step s a s') (i : ℕ)
    (hi : s'.recv.syncEntry = some i) : (s'.reqs i).sync = true ∧ (s'.reqs i).pc.hasPushed := by
  have := h i
  cases hs <;> grind

/-- The receive thread dispatches only requests of the asynchronous kind. -/
private lemma asyncEntry_step (h : ∀ i, s.recv.asyncEntry = some i → (s.reqs i).sync = false)
    (hhand : ∀ i ∈ s.recv.hand, (s.reqs i).pc.hasPushed = true) (hs : Step s a s') (i : ℕ)
    (hi : s'.recv.asyncEntry = some i) : (s'.reqs i).sync = false := by
  have := h i
  have := RecvPc.mem_hand_of_asyncEntry (r := s.recv) (i := i)
  cases hs <;> grind

/-- Requests of the asynchronous kind stay without a signal. -/
private lemma signals_step (h : ∀ i, (s.reqs i).sync = false → (s.reqs i).signals = 0)
    (hentry : ∀ i, s.recv.syncEntry = some i → (s.reqs i).sync = true)
    (hidle : ∀ i, (s.reqs i).pc.hasPushed = false → (s.reqs i).signals = 0) (hs : Step s a s')
    (i : ℕ) (hi : (s'.reqs i).sync = false) : (s'.reqs i).signals = 0 := by
  have := h i
  have := hidle i
  cases hs <;> grind

/-- Requests of the synchronous kind stay without a dispatch. -/
private lemma dispatched_step (h : ∀ i, (s.reqs i).sync = true → (s.reqs i).dispatched = [])
    (hentry : ∀ i, s.recv.asyncEntry = some i → (s.reqs i).sync = false)
    (hidle : ∀ i, (s.reqs i).pc.hasPushed = false → (s.reqs i).dispatched = [])
    (hs : Step s a s') (i : ℕ) (hi : (s'.reqs i).sync = true) : (s'.reqs i).dispatched = [] := by
  have := h i
  have := hidle i
  cases hs <;> grind

/-- Every step treats a request as the kind it is. -/
lemma kinds_step (h : Kinds s) (hs : Step s a s') : Kinds s' where
  tokens := tokens_step h.tokens hs
  syncEntry := syncEntry_step h.syncEntry (fun _ hi => (h.tokens.of_mem (Or.inr hi)).1) hs
  asyncEntry := asyncEntry_step h.asyncEntry (fun _ hi => (h.tokens.of_mem (Or.inr hi)).1) hs
  onlySync := onlySync_step h.onlySync hs
  signals := signals_step h.signals (fun i hi => (h.syncEntry i hi).1)
    (fun _ hi => (h.tokens.of_not_pushed hi).2.2.1) hs
  dispatched := dispatched_step h.dispatched h.asyncEntry
    (fun _ hi => (h.tokens.of_not_pushed hi).2.2.2) hs

end

/-- **The law of kinds** holds after every run. -/
theorem kinds_run {as : List Action} {s : Conn} (h : run as = some s) : Kinds s := by
  refine invariant ?_ (fun _ _ _ => kinds_step) h
  exact ⟨fun _ => rfl, by grind, by grind, by grind, by grind, by grind⟩

/-! ## Semaphores -/

/-- The semaphore of a synchronous request counts the signals that nobody has waited for, and a
signalled request has a result. -/
structure Semaphores (s : Conn) : Prop where
  /-- Signals are permits, or were waited for. -/
  signals : ∀ i, (s.reqs i).signals =
    (s.reqs i).permits + if (s.reqs i).sync && (s.reqs i).pc.hasWoken then 1 else 0
  /-- Before the signal there is a result. -/
  entry : ∀ i, s.recv.syncEntry = some i → (s.reqs i).result ≠ none
  /-- So there is one after it. -/
  result : ∀ i, (s.reqs i).signals ≠ 0 → (s.reqs i).result ≠ none
  /-- And it is what a call gets. -/
  outcome : ∀ i, (s.reqs i).sync = true →
    (s.reqs i).pc = .finishing ∨ (s.reqs i).pc = .returned → (s.reqs i).outcome ≠ none

section

variable {s s' : Conn} {a : Action}

/-- A signal makes a permit, and a wait uses one up. -/
private lemma semaphore_step
    (h : ∀ i, (s.reqs i).signals =
      (s.reqs i).permits + if (s.reqs i).sync && (s.reqs i).pc.hasWoken then 1 else 0)
    (honly : ∀ i, (s.reqs i).pc.onlySync = true → (s.reqs i).sync = true)
    (hentry : ∀ i, s.recv.syncEntry = some i → (s.reqs i).sync = true)
    (hs : Step s a s') (i : ℕ) :
    (s'.reqs i).signals =
      (s'.reqs i).permits + if (s'.reqs i).sync && (s'.reqs i).pc.hasWoken then 1 else 0 := by
  have := h i
  have := honly i
  cases hs <;> grind

/-- The receive thread sets a result before it signals. -/
private lemma entry_step (h : ∀ i, s.recv.syncEntry = some i → (s.reqs i).result ≠ none)
    (hs : Step s a s') (i : ℕ) (hi : s'.recv.syncEntry = some i) :
    (s'.reqs i).result ≠ none := by
  have := h i
  cases hs <;> grind

/-- A signalled request keeps its result. -/
private lemma result_step (h : ∀ i, (s.reqs i).signals ≠ 0 → (s.reqs i).result ≠ none)
    (hentry : ∀ i, s.recv.syncEntry = some i → (s.reqs i).result ≠ none) (hs : Step s a s')
    (i : ℕ) (hi : (s'.reqs i).signals ≠ 0) : (s'.reqs i).result ≠ none := by
  have := h i
  cases hs <;> grind

/-- A call reads the result after it was woken. -/
private lemma outcome_step
    (h : ∀ i, (s.reqs i).sync = true →
      (s.reqs i).pc = .finishing ∨ (s.reqs i).pc = .returned → (s.reqs i).outcome ≠ none)
    (hwoken : ∀ i, (s.reqs i).pc = .woken → (s.reqs i).result ≠ none) (hs : Step s a s') (i : ℕ)
    (hsync : (s'.reqs i).sync = true)
    (hi : (s'.reqs i).pc = .finishing ∨ (s'.reqs i).pc = .returned) :
    (s'.reqs i).outcome ≠ none := by
  have := h i
  have := hwoken i
  cases hs <;> grind

/-- A woken call was signalled. -/
lemma Semaphores.signals_ne_zero (h : Semaphores s) {i : ℕ}
    (hi : (s.reqs i).sync = true) (hpc : (s.reqs i).pc.hasWoken = true) :
    (s.reqs i).signals ≠ 0 := by
  rw [h.signals i, hi, hpc]
  simp

/-- Every step keeps the law of semaphores. -/
lemma semaphores_step (hk : Kinds s) (h : Semaphores s) (hs : Step s a s') : Semaphores s' where
  signals := semaphore_step h.signals hk.onlySync (fun i hi => (hk.syncEntry i hi).1) hs
  entry := entry_step h.entry hs
  result := result_step h.result h.entry hs
  outcome := outcome_step h.outcome (fun i hpc => h.result i (h.signals_ne_zero
    (hk.onlySync i (by rw [hpc]; rfl)) (by rw [hpc]; rfl))) hs

end

/-- **The law of semaphores** holds after every run. -/
theorem semaphores_run {as : List Action} {s : Conn} (h : run as = some s) : Semaphores s := by
  have hboth : Kinds s ∧ Semaphores s := by
    refine invariant (P := fun s => Kinds s ∧ Semaphores s) ?_ ?_ h
    · exact ⟨kinds_run (show run [] = some {} from rfl), ⟨fun _ => rfl, by grind, by grind, by grind⟩⟩
    · exact fun _ _ _ h hs => ⟨kinds_step h.1 hs, semaphores_step h.1 h.2 hs⟩
  exact hboth.2

end Asteros.Xpc
