import Asteros.Xpc.Correlation

set_option autoImplicit false

/-!
# The end of a connection

When its port dies the receive thread sets `cancelled`, takes the list of pending requests, fails
each of them and ends. The send functions do not look at `cancelled`. A request that is pushed
after the list was taken stays on the new list for good: nobody takes it off again, and a
synchronous caller waits forever.

## Main definitions

* `NoOrphans` — no entry is on the list once the receive thread has ended.
* `noPushAfterDrain` — no entry is pushed after the list was taken.

## Main results

* `noOrphans_iff` — the one holds exactly when the other does.
* `orphan_waits` — otherwise a request is left that never will be.
-/

namespace Asteros.Xpc

attribute [local grind =] Request.completions Request.touch Request.free

/-- The action pushes an entry. -/
@[grind] def Action.isPush : Action → Bool
  | .push _ => true
  | .start _ _ | .takeId _ | .send _ | .wait _ | .wake _ | .readResult _ | .freeEntry _ => false
  | .receive _ | .recvFails | .markCancelled | .drain | .advance | .cancel => false

/-- The action takes the list. -/
@[grind] def Action.isDrain : Action → Bool
  | .drain => true
  | .start _ _ | .takeId _ | .push _ | .send _ | .wait _ | .wake _ | .readResult _ => false
  | .freeEntry _ | .receive _ | .recvFails | .markCancelled | .advance | .cancel => false

/-- No entry is pushed after the list was taken. -/
def noPushAfterDrain : List Action → Bool
  | [] => true
  | a :: as => if a.isDrain then !as.any Action.isPush else noPushAfterDrain as

/-- After one more action: it is no push, or the list was not taken. -/
lemma noPushAfterDrain_concat (as : List Action) (a : Action) :
    noPushAfterDrain (as ++ [a]) =
      (noPushAfterDrain as && !(as.any Action.isDrain && a.isPush)) := by
  induction as with
  | nil => cases a <;> rfl
  | cons b as ih =>
    simp only [List.cons_append, noPushAfterDrain, ih]
    cases hb : b.isDrain with
    | true => simp [hb, Bool.not_or]
    | false => simp [hb]

/-- Once the receive thread has ended, then and later, no entry is on the list. -/
def NoOrphans (as : List Action) : Prop :=
  ∀ pre post t, as = pre ++ post → run pre = some t → t.recv = .ended → t.pending = []

section

variable {s s' : Conn} {a : Action}

/-- Only a push puts something on the list. -/
lemma pending_step (hs : Step s a s') (ha : a.isPush = false) (h : s.pending = []) :
    s'.pending = [] := by
  cases hs with
  | receiveReply msg hrecv hroute hpending => simp [h] at hpending
  | _ => grind

/-- Once the list was taken, it stays taken, and nothing leaves the new list. -/
lemma drained_step (hs : Step s a s') (h : s.recv.drained = true) :
    s'.recv.drained = true ∧ ∀ i ∈ s.pending, i ∈ s'.pending := by
  cases hs <;> grind

/-- A push puts its entry on the list. -/
lemma push_step (hs : Step s a s') (ha : a.isPush = true) : s'.pending ≠ [] := by
  cases hs <;> grind

/-- Only taking the list takes it, and it empties it. -/
lemma drain_step (hs : Step s a s') (h : s.recv.drained = false) :
    s'.recv.drained = a.isDrain ∧ (a.isDrain = true → s'.pending = []) := by
  cases hs <;> grind

end

/-- Without taking the list, nothing is pushed after it was taken. -/
lemma noPushAfterDrain_of_no_drain {as : List Action} (h : as.any Action.isDrain = false) :
    noPushAfterDrain as = true := by
  induction as with
  | nil => rfl
  | cons a as ih =>
    simp only [List.any_cons, Bool.or_eq_false_iff] at h
    simp [noPushAfterDrain, h.1, ih h.2]

/-- The list was taken exactly if the schedule says so, and from then on something is on it
exactly if it was pushed since.

**Proof sketch.** By induction on the run. Before the list is taken there is nothing to say;
taking it empties it; afterwards only a push changes it, and makes it nonempty for good. -/
lemma pending_run {as : List Action} {s : Conn} (h : run as = some s) :
    s.recv.drained = as.any Action.isDrain ∧
      (s.recv.drained = true → (s.pending = [] ↔ noPushAfterDrain as = true)) := by
  refine Transition.trace_invariant (P := fun as s => s.recv.drained = as.any Action.isDrain ∧
    (s.recv.drained = true → (s.pending = [] ↔ noPushAfterDrain as = true))) ?_ ?_ h
  · exact ⟨rfl, by grind⟩
  · intro as a s s' ih ha
    have hs := Step.of_step ha
    obtain ⟨hany, hpending⟩ := ih
    rw [noPushAfterDrain_concat, List.any_append, List.any_cons, List.any_nil, Bool.or_false,
      ← hany]
    cases hd : s.recv.drained with
    | true =>
      obtain ⟨hd', hkeep⟩ := drained_step hs hd
      refine ⟨by rw [hd']; rfl, fun _ => ?_⟩
      cases ha : a.isPush with
      | true => simp [push_step hs ha]
      | false =>
        have hback : s'.pending = [] → s.pending = [] := fun hnil =>
          List.eq_nil_iff_forall_not_mem.mpr fun i hi => by simpa [hnil] using hkeep i hi
        rw [Iff.intro hback (pending_step hs ha), hpending hd]
        simp
    | false =>
      obtain ⟨hd', hempty⟩ := drain_step hs hd
      refine ⟨by rw [hd']; rfl, fun hdrained => ?_⟩
      rw [hd'] at hdrained
      simp [hempty hdrained, noPushAfterDrain_of_no_drain (hany ▸ hd)]

/-- **No request is orphaned exactly if none is pushed after the list was taken**, in every run in
which the receive thread ends.

**Proof sketch.** The thread has ended only if the list was taken, so `pending_run` applies to the
run and to each of its beginnings. -/
theorem noOrphans_iff {as : List Action} {s : Conn} (h : run as = some s)
    (hend : s.recv = .ended) : NoOrphans as ↔ noPushAfterDrain as = true := by
  have hdrained : s.recv.drained = true := by rw [hend]; rfl
  constructor
  · intro hno
    exact ((pending_run h).2 hdrained).mp (hno as [] s (List.append_nil as).symm h hend)
  · rintro hpush pre post t rfl ht htend
    refine ((pending_run ht).2 (by rw [htend]; rfl)).mpr ?_
    have hprefix : ∀ bs, noPushAfterDrain (pre ++ bs) = true → noPushAfterDrain pre = true := by
      intro bs
      induction bs using List.reverseRecOn with
      | nil => simp
      | append_singleton bs b ih =>
        intro hbs
        rw [← List.append_assoc, noPushAfterDrain_concat, Bool.and_eq_true] at hbs
        exact ih hbs.1
    exact hprefix post hpush

/-- A request that was pending when the port died, and is failed. -/
def failedRequest : List Action :=
  [.start 0 false, .takeId 0, .push 0, .send 0, .recvFails, .markCancelled, .drain, .advance,
    .advance, .advance]

/-- It is not orphaned. -/
theorem noOrphans_failedRequest : NoOrphans failedRequest :=
  (noOrphans_iff (s := ((run failedRequest).getD {})) (by rfl) (by rfl)).mpr (by decide)

/-- A synchronous request that is made just after the receive thread has ended. -/
def lateRequest : List Action :=
  [.recvFails, .markCancelled, .drain, .advance, .start 0 true, .takeId 0, .push 0, .send 0,
    .wait 0]

/-- **A late request is orphaned.** -/
theorem not_noOrphans_lateRequest : ¬NoOrphans lateRequest := by
  have hrun : (run lateRequest).map (fun s => s.pending) = some [0] := by decide
  obtain ⟨s, hs, hpending⟩ := Option.map_eq_some_iff.mp hrun
  have hend : s.recv = .ended := by
    cases hs
    rfl
  intro hno
  have hnil := hno lateRequest [] s (List.append_nil _).symm hs hend
  rw [hnil] at hpending
  cases hpending

/-- **An orphan waits forever**: what is on the list once it was taken is there after every
further run, and was not completed. -/
theorem orphan_waits {as bs : List Action} {s t : Conn} (h : run as = some s)
    (hd : s.recv.drained = true) (ht : Transition.exec step s bs = some t) {i : ℕ}
    (hi : i ∈ s.pending) : i ∈ t.pending ∧ (t.reqs i).completions = 0 := by
  have hkeep : t.recv.drained = true ∧ i ∈ t.pending := by
    refine Transition.invariant (P := fun s => s.recv.drained = true ∧ i ∈ s.pending) ?_
      ⟨hd, hi⟩ ht
    intro s a s' hs ha
    obtain ⟨hd', hmem⟩ := drained_step (Step.of_step ha) hs.1
    exact ⟨hd', hmem i hs.2⟩
  have hrun : run (as ++ bs) = some t := Transition.exec_append.mpr ⟨s, h, ht⟩
  obtain ⟨-, hsignals, hdispatched⟩ := (tokens_run hrun).of_mem (Or.inl hkeep.2)
  exact ⟨hkeep.2, by simp [Request.completions, hsignals, hdispatched]⟩

end Asteros.Xpc
