import Asteros.Xpc.Teardown

set_option autoImplicit false

/-!
# Who frees a pending entry

Three parties free entries: the woken caller its own, `complete_pending` an asynchronous one, and
`fail_all_pending` both kinds. The three do not agree in three places. `fail_all_pending` frees a
synchronous entry that the caller it wakes goes on to read and to free. An asynchronous entry can
be completed, and freed, before its sender has read `p->msgid` out of it to send the message. And
an entry pushed after the list was taken belongs to nobody. A run that avoids the three frees and
completes every entry exactly once, and reads none after it was freed.

## Main definitions

* `SafeStep` — the step avoids the three.
* `AtMostOnce`, `ExactlyOnce` — what an entry may have seen, and what it has seen in the end.

## Main results

* `ownership` — in runs that avoid the three nothing happens twice or too late, and in finished runs
  everything happened once exactly if the run avoided the three.
-/

namespace Asteros.Xpc

attribute [local grind =] Request.completions Request.touch Request.free

/-- The entry that the receive thread completes next. -/
@[grind] def RecvPc.next : RecvPc → Option ℕ
  | .found i _ | .draining (i :: _) => some i
  | .draining [] | .resultSet _ | .freed _ _ | .receiving | .stopped | .marked | .ended => none
  | .drainSet _ _ | .drainSignalled _ _ | .drainFreed _ _ => none

/-- The entry that is completed next is in the hands of the receive thread, and not freed. -/
lemma RecvPc.mem_hand_of_next {r : RecvPc} {i : ℕ} (h : r.next = some i) :
    i ∈ r.hand ∧ r.asyncEntry = none := by
  cases r with
  | draining rest => cases rest <;> grind
  | _ => grind

/-- A call that has pushed its entry and goes no further than an asynchronous one has returned, or
is about to send. -/
lemma CallPc.eq_returned {pc : CallPc} (h : pc.hasPushed = true) (honly : pc.onlySync = false)
    (hne : pc ≠ .pushed) : pc = .returned := by
  cases pc <;> grind

/-- The step avoids the three places at which the parties do not agree: the list is taken without
a synchronous entry on it, an asynchronous entry is freed after its sender has read it, and no
entry is pushed after the list was taken. -/
def SafeStep (s : Conn) : Action → Prop
  | .drain => ∀ i ∈ s.pending, (s.reqs i).sync = false
  | .advance => ∀ i, s.recv.next = some i → (s.reqs i).sync = false → (s.reqs i).pc ≠ .pushed
  | .push _ => s.recv.drained = false
  | _ => True

/-- The run avoids the three places. -/
def SafeRun (as : List Action) : Prop := Transition.Along step SafeStep {} as

/-- The entry is not freed twice, not accessed after it was freed, not completed twice, and not
completed without a result. -/
structure AtMostOnce (r : Request) : Prop where
  /-- It is not freed twice. -/
  frees : r.frees ≤ 1
  /-- It is not accessed after it was freed. -/
  readAfterFree : r.readAfterFree = false
  /-- It is not completed twice. -/
  completions : r.completions ≤ 1
  /-- It has a result when it is signalled. -/
  result : r.signals ≠ 0 → r.result ≠ none

/-- The entry was freed and completed exactly once. -/
structure ExactlyOnce (r : Request) : Prop extends AtMostOnce r where
  /-- It was freed. -/
  freed : r.frees = 1
  /-- It was completed. -/
  completed : r.completions = 1

/-- All is done: the receive thread has ended, and every call has returned. -/
def Finished (s : Conn) : Prop :=
  s.recv = .ended ∧ ∀ i, (s.reqs i).pc = .idle ∨ (s.reqs i).pc = .returned

/-! ## Runs that avoid the three -/

/-- In a run that avoids the three, an entry has the one owner that frees it. -/
structure Owned (s : Conn) : Prop where
  /-- `fail_all_pending` has asynchronous entries only. -/
  drained : s.recv.drained = true → ∀ i ∈ s.recv.hand, (s.reqs i).sync = false
  /-- So it does not free one that it has signalled. -/
  drainSignalled : ∀ i rest, s.recv ≠ .drainSignalled i rest
  /-- A synchronous entry is freed by its caller. -/
  sync : ∀ i, (s.reqs i).sync = true →
    (s.reqs i).frees = if (s.reqs i).pc = .returned then 1 else 0
  /-- An asynchronous entry is freed by the receive thread, just before it is dispatched. -/
  async : ∀ i, (s.reqs i).sync = false →
    (s.reqs i).frees = (s.reqs i).dispatched.length + if s.recv.asyncEntry = some i then 1 else 0
  /-- Then its sender is done with it. -/
  sent : ∀ i, (s.reqs i).sync = false → (s.reqs i).frees ≠ 0 → (s.reqs i).pc = .returned
  /-- Nothing was accessed too late. -/
  readAfterFree : ∀ i, (s.reqs i).readAfterFree = false
  /-- Once the list was taken it stays empty. -/
  pending : s.recv.drained = true → s.pending = []

section

variable {s s' : Conn} {a : Action}

/-- What waits to be completed, or is not pushed yet, is not freed. -/
lemma Owned.frees_eq_zero (h : Owned s) (hk : Kinds s) (hm : Semaphores s) {i : ℕ}
    (hi : i ∈ s.pending ∨ i ∈ s.recv.hand ∨ (s.reqs i).pc.hasPushed = false)
    (hentry : s.recv.asyncEntry ≠ some i) : (s.reqs i).frees = 0 := by
  have hzero : (s.reqs i).signals = 0 ∧ (s.reqs i).dispatched = [] := by
    rcases hi with hi | hi | hi
    · exact (hk.tokens.of_mem (Or.inl hi)).2
    · exact (hk.tokens.of_mem (Or.inr hi)).2
    · exact (hk.tokens.of_not_pushed hi).2.2
  cases hsync : (s.reqs i).sync with
  | true =>
    rw [h.sync i hsync, if_neg]
    intro hpc
    exact hm.signals_ne_zero hsync (by rw [hpc]; rfl) hzero.1
  | false => rw [h.async i hsync, hzero.2, if_neg hentry, List.length_nil]

/-- A request that is not pushed was not freed or dispatched, nor is it about to be. -/
lemma Owned.of_not_pushed (h : Owned s) (hk : Kinds s) (hm : Semaphores s) {i : ℕ}
    (hi : (s.reqs i).pc.hasPushed = false) :
    (s.reqs i).frees = 0 ∧ (s.reqs i).dispatched = [] ∧ s.recv.asyncEntry ≠ some i := by
  have hnone := hk.tokens.of_not_pushed hi
  have hentry : s.recv.asyncEntry ≠ some i := fun hsome =>
    hnone.2.1 (RecvPc.mem_hand_of_asyncEntry hsome)
  exact ⟨h.frees_eq_zero hk hm (Or.inr (Or.inr hi)) hentry, hnone.2.2.2, hentry⟩

/-- The entry that the receive thread works on is not freed, until it frees it. -/
lemma Owned.frees_next (h : Owned s) (hk : Kinds s) (hm : Semaphores s) {i : ℕ}
    (hi : s.recv.next = some i ∨ s.recv.syncEntry = some i) : (s.reqs i).frees = 0 := by
  rcases hi with hi | hi
  · obtain ⟨hmem, hentry⟩ := RecvPc.mem_hand_of_next hi
    exact h.frees_eq_zero hk hm (Or.inr (Or.inl hmem)) (by simp [hentry])
  · refine h.frees_eq_zero hk hm (Or.inr (Or.inl ?_)) ?_
    · have := h.drainSignalled i
      cases hr : s.recv <;> grind
    · cases hr : s.recv <;> grind

/-- A synchronous entry is freed by its caller, and by nobody else. -/
private lemma owned_sync_step
    (h : ∀ i, (s.reqs i).sync = true →
      (s.reqs i).frees = if (s.reqs i).pc = .returned then 1 else 0)
    (hidle : ∀ i, (s.reqs i).pc = .idle → (s.reqs i).frees = 0)
    (honly : ∀ i, (s.reqs i).pc.onlySync = true → (s.reqs i).sync = true)
    (hentry : ∀ i rest, s.recv ≠ .drainSignalled i rest) (hs : Step s a s') (i : ℕ)
    (hsync : (s'.reqs i).sync = true) :
    (s'.reqs i).frees = if (s'.reqs i).pc = .returned then 1 else 0 := by
  have := h i
  have := honly i
  have := hidle i
  cases hs <;> grind

/-- An asynchronous entry is freed by the receive thread, and by nobody else. -/
private lemma owned_async_step
    (h : ∀ i, (s.reqs i).sync = false → (s.reqs i).frees =
      (s.reqs i).dispatched.length + if s.recv.asyncEntry = some i then 1 else 0)
    (hidle : ∀ i, (s.reqs i).pc = .idle →
      (s.reqs i).frees = 0 ∧ (s.reqs i).dispatched = [] ∧ s.recv.asyncEntry ≠ some i)
    (honly : ∀ i, (s.reqs i).pc.onlySync = true → (s.reqs i).sync = true)
    (hentry : ∀ i rest, s.recv ≠ .drainSignalled i rest) (hs : Step s a s') (i : ℕ)
    (hsync : (s'.reqs i).sync = false) :
    (s'.reqs i).frees =
      (s'.reqs i).dispatched.length + if s'.recv.asyncEntry = some i then 1 else 0 := by
  have := h i
  have := honly i
  have := hidle i
  cases hs <;> grind

/-- The sender of an asynchronous entry is done with it before it is freed. -/
private lemma owned_sent_step
    (h : ∀ i, (s.reqs i).sync = false → (s.reqs i).frees ≠ 0 → (s.reqs i).pc = .returned)
    (hidle : ∀ i, (s.reqs i).pc.hasPushed = false → (s.reqs i).frees = 0)
    (hdone : a = .advance → ∀ i, s.recv.next = some i → (s.reqs i).sync = false →
      (s.reqs i).pc = .returned)
    (honly : ∀ i, (s.reqs i).pc.onlySync = true → (s.reqs i).sync = true)
    (hentry : ∀ i rest, s.recv ≠ .drainSignalled i rest) (hs : Step s a s') (i : ℕ)
    (hsync : (s'.reqs i).sync = false) (hfrees : (s'.reqs i).frees ≠ 0) :
    (s'.reqs i).pc = .returned := by
  have := h i
  have := honly i
  have := hidle i
  have := hdone
  cases hs <;> grind

/-- Nothing is accessed after it was freed. -/
private lemma owned_readAfterFree_step
    (h : ∀ i, (s.reqs i).readAfterFree = false)
    (hcall : ∀ i, (s.reqs i).pc = .pushed ∨ (s.reqs i).pc.onlySync = true → (s.reqs i).frees = 0)
    (hrecv : ∀ i, s.recv.next = some i ∨ s.recv.syncEntry = some i → (s.reqs i).frees = 0) (hs : Step s a s') (i : ℕ) : (s'.reqs i).readAfterFree = false := by
  have := h i
  cases hs <;> grind

/-- After the list was taken it holds asynchronous entries, and none is added. -/
private lemma owned_drained_step
    (h : s.recv.drained = true → ∀ i ∈ s.recv.hand, (s.reqs i).sync = false)
    (hpushed : ∀ i ∈ s.recv.hand, (s.reqs i).pc.hasPushed = true) (hs : Step s a s')
    (hsafe : SafeStep s a) (hd : s'.recv.drained = true) :
    ∀ i ∈ s'.recv.hand, (s'.reqs i).sync = false := by
  intro i hi
  cases hs <;> grind [SafeStep]

/-- A safe step does not make `fail_all_pending` free an entry that it has signalled. -/
private lemma owned_drainSignalled_step
    (h : s.recv.drained = true → ∀ i ∈ s.recv.hand, (s.reqs i).sync = false)
    (hk : ∀ i, s.recv.syncEntry = some i → (s.reqs i).sync = true) (hs : Step s a s') (i : ℕ)
    (rest : List ℕ) (hentry : ∀ rest, s.recv ≠ .drainSignalled i rest) :
    s'.recv ≠ .drainSignalled i rest := by
  have := hk i
  cases hs <;> grind

/-- After the list was taken, a safe step puts nothing on it. -/
private lemma owned_pending_step (h : s.recv.drained = true → s.pending = []) (hs : Step s a s')
    (hsafe : SafeStep s a) (hd : s'.recv.drained = true) : s'.pending = [] := by
  cases hs with
  | receiveReply msg hrecv hroute hpending => grind
  | _ => grind [SafeStep]

/-- A safe step leaves every entry with its owner. -/
lemma owned_step (hk : Kinds s) (hm : Semaphores s) (h : Owned s) (hs : Step s a s')
    (hsafe : SafeStep s a) : Owned s' where
  drained := owned_drained_step h.drained (fun _ hi => (hk.tokens.of_mem (Or.inr hi)).1) hs hsafe
  drainSignalled i rest := owned_drainSignalled_step h.drained
    (fun i hi => (hk.syncEntry i hi).1) hs i rest (h.drainSignalled i)
  sync := owned_sync_step h.sync (fun i hpc => (h.of_not_pushed hk hm (by rw [hpc]; rfl)).1)
    hk.onlySync h.drainSignalled hs
  async := owned_async_step h.async (fun i hpc => h.of_not_pushed hk hm (by rw [hpc]; rfl))
    hk.onlySync h.drainSignalled hs
  sent := by
    refine owned_sent_step h.sent (fun i hpc => (h.of_not_pushed hk hm hpc).1) ?_ hk.onlySync
      h.drainSignalled hs
    rintro rfl i hnext hsync
    have hpushed := (hk.tokens.of_mem (Or.inr (RecvPc.mem_hand_of_next hnext).1)).1
    refine CallPc.eq_returned hpushed ?_ (hsafe i hnext hsync)
    rw [← Bool.not_eq_true]
    intro honly
    rw [hk.onlySync i honly] at hsync
    cases hsync
  readAfterFree := by
    refine owned_readAfterFree_step h.readAfterFree (fun i hi => ?_)
      (fun i => h.frees_next hk hm) hs
    cases hsync : (s.reqs i).sync with
    | true =>
      rw [h.sync i hsync, if_neg]
      rcases hi with hi | hi <;> intro hpc <;> rw [hpc] at hi <;> cases hi
    | false =>
      rcases hi with hi | hi
      · by_contra hfrees
        rw [h.sent i hsync hfrees] at hi
        cases hi
      · rw [hk.onlySync i hi] at hsync
        cases hsync
  pending := owned_pending_step h.pending hs hsafe

end

/-- **Every entry has one owner** in a run that avoids the three. -/
theorem owned_run {as : List Action} {s : Conn} (h : run as = some s) (hsafe : SafeRun as) :
    Owned s := by
  have hall : Kinds s ∧ Semaphores s ∧ Owned s := by
    refine invariant_along (P := fun s => Kinds s ∧ Semaphores s ∧ Owned s) ?_ ?_ hsafe h
    · have hfresh : run [] = some {} := rfl
      exact ⟨kinds_run hfresh, semaphores_run hfresh,
        ⟨by grind, by grind, by grind, by grind, by grind, by grind, by grind⟩⟩
    · exact fun s a s' ⟨hk, hm, ho⟩ hc hs =>
        ⟨kinds_step hk hs, semaphores_step hk hm hs, owned_step hk hm ho hs hc⟩
  exact hall.2.2

/-- In a run that avoids the three nothing happens twice, or too late. -/
lemma atMostOnce_of_safeRun {as : List Action} {s : Conn} (h : run as = some s)
    (hsafe : SafeRun as) (i : ℕ) : AtMostOnce (s.reqs i) where
  frees := by
    have ho := owned_run h hsafe
    cases hsync : (s.reqs i).sync with
    | true =>
      rw [ho.sync i hsync]
      split_ifs <;> omega
    | false =>
      have htoken := tokens_run h i
      rw [ho.async i hsync]
      rw [Request.completions] at htoken
      split_ifs with hentry
      · have hmem := List.count_pos_iff.mpr (RecvPc.mem_hand_of_asyncEntry hentry)
        split_ifs at htoken <;> omega
      · split_ifs at htoken <;> omega
  readAfterFree := (owned_run h hsafe).readAfterFree i
  completions := by
    have htoken := tokens_run h i
    split_ifs at htoken <;> omega
  result := (semaphores_run h).result i

/-- A finished run that avoids the three has done everything once. -/
lemma exactlyOnce_of_safeRun {as : List Action} {s : Conn} (h : run as = some s)
    (hsafe : SafeRun as) (hfin : Finished s) {i : ℕ} (hi : (s.reqs i).pc ≠ .idle) :
    ExactlyOnce (s.reqs i) := by
  have ho := owned_run h hsafe
  have hk := kinds_run h
  have hpc : (s.reqs i).pc = .returned := (hfin.2 i).resolve_left hi
  have hcompleted : (s.reqs i).completions = 1 := by
    have htoken := hk.tokens i
    rw [ho.pending (by rw [hfin.1]; rfl), hfin.1, hpc] at htoken
    simpa [RecvPc.hand, CallPc.hasPushed] using htoken
  refine ⟨atMostOnce_of_safeRun h hsafe i, ?_, hcompleted⟩
  cases hsync : (s.reqs i).sync with
  | true => rw [ho.sync i hsync, if_pos hpc]
  | false =>
    have hsignals := hk.signals i hsync
    rw [Request.completions, hsignals, Nat.zero_add] at hcompleted
    rw [ho.async i hsync, hcompleted, hfin.1]
    rfl

/-! ## Runs that do not -/

/-- A synchronous entry is in the hands of `fail_all_pending`, or was freed by it: it is freed
once more than its call has freed it, or will be. -/
def FreedTwice (i : ℕ) (s : Conn) : Prop :=
  (s.reqs i).sync = true ∧ (s.reqs i).pc.hasPushed = true ∧ s.recv.drained = true ∧
    ((i ∈ s.recv.hand ∨ ∃ rest, s.recv = .drainSignalled i rest) ∧
        (if (s.reqs i).pc = .returned then 1 else 0) ≤ (s.reqs i).frees ∨
      (if (s.reqs i).pc = .returned then 1 else 0) + 1 ≤ (s.reqs i).frees)

/-- An asynchronous entry was freed, and its sender has read it since or is going to. -/
def FreedEarly (i : ℕ) (s : Conn) : Prop :=
  (s.reqs i).sync = false ∧ (s.reqs i).pc.hasPushed = true ∧ (s.reqs i).frees ≠ 0 ∧
    ((s.reqs i).pc = .pushed ∨ (s.reqs i).readAfterFree = true)

section

variable {s s' : Conn} {a : Action} {i : ℕ}

/-- What is going to be freed twice is, or stays so. -/
lemma freedTwice_step (hk : Kinds s) (h : FreedTwice i s) (hs : Step s a s') :
    FreedTwice i s' := by
  have hasync := hk.asyncEntry i
  clear hk
  unfold FreedTwice at *
  cases hs <;> grind

/-- What was freed early stays so. -/
lemma freedEarly_step (h : FreedEarly i s) (hs : Step s a s') : FreedEarly i s' := by
  unfold FreedEarly at *
  cases hs <;> grind

/-- Taking the list with a synchronous entry on it leads to freeing that entry twice. -/
lemma freedTwice_of_drain (hk : Kinds s) (hm : Semaphores s) (hs : Step s .drain s')
    (hi : i ∈ s.pending) (hsync : (s.reqs i).sync = true) : FreedTwice i s' := by
  obtain ⟨hpushed, hsignals, -⟩ := hk.tokens.of_mem (Or.inl hi)
  have hpc : (s.reqs i).pc ≠ .returned := by
    intro hpc
    exact hm.signals_ne_zero hsync (by rw [hpc]; rfl) hsignals
  cases hs with
  | drain hrecv =>
    exact ⟨hsync, hpushed, rfl, Or.inl ⟨Or.inl hi, by rw [if_neg hpc]; exact Nat.zero_le _⟩⟩

/-- Completing an asynchronous entry whose sender has not read it frees it early. -/
lemma freedEarly_of_advance (hs : Step s .advance s') (hnext : s.recv.next = some i)
    (hsync : (s.reqs i).sync = false) (hpc : (s.reqs i).pc = .pushed) : FreedEarly i s' := by
  unfold FreedEarly
  cases hs <;> grind

end

/-- A property of states that the steps of runs keep holds to the end of the run. -/
lemma persists {P : Conn → Prop} (hstep : ∀ s a s', Kinds s → P s → Step s a s' → P s')
    {s t : Conn} {bs : List Action} (hk : Kinds s) (hs : P s)
    (ht : Transition.exec step s bs = some t) : P t := by
  have hboth : Kinds t ∧ P t :=
    Transition.invariant (P := fun s => Kinds s ∧ P s) (fun s a s' h ha =>
      ⟨kinds_step h.1 (Step.of_step ha), hstep s a s' h.1 h.2 (Step.of_step ha)⟩) ⟨hk, hs⟩ ht
  exact hboth.2

/-- In a finished run that has done everything once, every step avoided the three.

**Proof sketch.** Each of the three leaves a trace that no later step removes: an entry that is
freed twice in the end, one that its sender reads after it was freed, or one that is never
completed. -/
lemma safeStep_of_exactlyOnce {pre post : List Action} {a : Action} {s s' t : Conn}
    (hs : run pre = some s) (ha : step s a = some s')
    (ht : Transition.exec step s' post = some t) (hfin : Finished t)
    (honce : ∀ i, (t.reqs i).pc ≠ .idle → ExactlyOnce (t.reqs i)) : SafeStep s a := by
  have hk := kinds_run hs
  have hm := semaphores_run hs
  have hstep := Step.of_step ha
  have hs' : run (pre ++ [a]) = some s' :=
    Transition.exec_append.mpr ⟨s, hs, by simp [Transition.exec, ha]⟩
  have hk' := kinds_run hs'
  have hpushed : ∀ i, (t.reqs i).pc.hasPushed = true →
      ExactlyOnce (t.reqs i) ∧ (t.reqs i).pc = .returned := by
    intro i hi
    have hidle : (t.reqs i).pc ≠ .idle := by
      intro hpc
      rw [hpc] at hi
      cases hi
    exact ⟨honce i hidle, (hfin.2 i).resolve_left hidle⟩
  cases a with
  | drain =>
    intro i hi
    rw [← Bool.not_eq_true]
    intro hsync
    have htwice := persists (fun s a s' => freedTwice_step) hk'
      (freedTwice_of_drain hk hm hstep hi hsync) ht
    obtain ⟨-, hpush, -, hfrees⟩ := htwice
    obtain ⟨hone, hpc⟩ := hpushed i hpush
    have hfreed := hone.freed
    rw [hpc, hfin.1] at hfrees
    simp [RecvPc.hand, hfreed] at hfrees
  | advance =>
    intro i hnext hsync hpc
    have hearly := persists (fun s a s' _ => freedEarly_step) hk'
      (freedEarly_of_advance hstep hnext hsync hpc) ht
    obtain ⟨-, hpush, -, hread⟩ := hearly
    obtain ⟨hone, hpc⟩ := hpushed i hpush
    rw [hpc, hone.readAfterFree] at hread
    simp at hread
  | push i =>
    show s.recv.drained = false
    rw [← Bool.not_eq_true]
    intro hd
    have hd' := (drained_step hstep hd).1
    have hmem : i ∈ s'.pending := by
      cases hstep
      simp
    obtain ⟨hmem', hzero⟩ := orphan_waits hs' hd' ht hmem
    have hrun : run (pre ++ [Action.push i] ++ post) = some t :=
      Transition.exec_append.mpr ⟨s', hs', ht⟩
    have hpush := ((tokens_run hrun).of_mem (Or.inl hmem')).1
    have hcompleted := (hpushed i hpush).1.completed
    omega
  | _ => trivial

/-- **Ownership of pending entries**, in every run of a connection. If every step of the run avoids
the three places at which the owners do not agree, then in the state reached no entry was freed
twice, accessed after it was freed, completed twice, or signalled without a result. And if all is
done in that state, every entry was freed and completed exactly once exactly if every step avoided
the three.

**Proof sketch.** In a run that avoids them every entry has one owner (`owned_run`), and the token
law does the rest. In one that does not, the first defect leaves a trace in the last state. -/
theorem ownership {as : List Action} {s : Conn} (h : run as = some s) :
    (SafeRun as → ∀ i, AtMostOnce (s.reqs i)) ∧
    (Finished s →
      ((∀ i, (s.reqs i).pc ≠ .idle → ExactlyOnce (s.reqs i)) ↔ SafeRun as)) := by
  refine ⟨fun hsafe => atMostOnce_of_safeRun h hsafe, fun hfin => ⟨fun honce => ?_, fun hsafe i =>
    exactlyOnce_of_safeRun h hsafe hfin⟩⟩
  refine Transition.along_of_split h fun pre a post t v _ hpre ha hpost => ?_
  exact safeStep_of_exactlyOnce hpre ha hpost hfin honce

/-- An asynchronous request that is failed after it was sent avoids the three. -/
theorem ownership_failedRequest :
    ∃ s, run failedRequest = some s ∧ SafeRun failedRequest ∧ AtMostOnce (s.reqs 0) := by
  have hrun : run failedRequest = some ((run failedRequest).getD {}) := rfl
  have hfin : Finished ((run failedRequest).getD {}) := by
    refine ⟨rfl, fun i => ?_⟩
    cases i with
    | zero => exact Or.inr rfl
    | succ i => exact Or.inl rfl
  have honce : ∀ i, (((run failedRequest).getD {}).reqs i).pc ≠ .idle →
      ExactlyOnce (((run failedRequest).getD {}).reqs i) := by
    intro i hi
    cases i with
    | zero => exact ⟨⟨by decide, rfl, by decide, fun h => absurd rfl h⟩, rfl, rfl⟩
    | succ i => exact absurd rfl hi
  have hsafe := ((ownership hrun).2 hfin).mp honce
  exact ⟨_, hrun, hsafe, (ownership hrun).1 hsafe 0⟩

/-- A synchronous request that is pending when the port dies. -/
def failedSync : List Action :=
  [.start 0 true, .takeId 0, .push 0, .send 0, .wait 0, .recvFails, .markCancelled, .drain,
    .advance, .advance, .wake 0, .advance, .readResult 0, .freeEntry 0, .advance]

/-- **A synchronous request that is failed is freed twice**: by `fail_all_pending`, and again by
the caller that it has woken, after it has read the freed entry. -/
theorem not_exactlyOnce_failedSync :
    ∃ s, run failedSync = some s ∧ Finished s ∧ (s.reqs 0).frees = 2 ∧
      (s.reqs 0).readAfterFree = true ∧ ¬ExactlyOnce (s.reqs 0) := by
  refine ⟨(run failedSync).getD {}, rfl, ⟨rfl, fun i => ?_⟩, rfl, rfl, fun h => ?_⟩
  · cases i with
    | zero => exact Or.inr rfl
    | succ i => exact Or.inl rfl
  · exact absurd h.freed (by decide)

end Asteros.Xpc
