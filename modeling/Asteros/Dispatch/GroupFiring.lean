import Asteros.Dispatch.Group
import Asteros.Lib.Tally
import Mathlib.Data.List.Count
import Mathlib.Data.List.Nodup

set_option autoImplicit false

/-!
# When the notifies of a group fire

A notify is in one place at a time: in the list of the group, in the hand of the thread that is to
push it, or pushed. It leaves the list only while the count is 0, and the count is the number of
enters that no leave has matched; so once it has left, none of the enters before its registration
is unmatched, whatever enters come later.

## Main definitions

* `Invariant` — the account of the notifies and of the count.
* `Fires` — what the clients of a group rely on.

## Main results

* `Invariant.step` — every step keeps the account.
* `firing` — notifies fire once, and not before the group was empty.
-/

namespace Asteros.Dispatch.Group

open Tally

/-! ## The account -/

/-- How often a thread has the notify in its hand. -/
def Pc.holds (node : Notify) : Pc → ℕ
  | .submitting pending => pending.count node
  | .firing n => if n = node then 1 else 0
  | .client | .pushing _ _ | .inCond _ _ | .relocking _ _ | .returned _ => 0

/-- How often a notify has been taken out of the list, or was to fire at once. -/
def State.detached (s : State) (node : Notify) : ℕ :=
  tally (Pc.holds node) s.threads + s.submitted.count node

/-- The account of the notifies and of the count. -/
structure Invariant (s : State) : Prop where
  /-- The count is the number of the enters that no leave has matched. -/
  count : s.group.count = s.entered.length
  /-- Enters are numbered. -/
  entered : ∀ e ∈ s.entered, e < s.nextEnter
  /-- The notifies are numbered. -/
  fresh : ∀ node ∈ s.registered, node.id < s.nextNotify
  /-- A notify is registered once. -/
  distinct : s.registered.Nodup
  /-- A notify that was registered is in one place. -/
  account : ∀ node, s.registered.count node = s.group.notifyHead.count node + s.detached node
  /-- An empty group has no notifies. -/
  empty : s.group.count = 0 → s.group.notifyHead = []
  /-- The enters before a registration are numbered. -/
  before : ∀ id, ∀ e ∈ s.enteredBefore id, e < s.nextEnter
  /-- The enters before the registration of a notify that has left the list are matched. -/
  matched : ∀ node, 0 < s.detached node → ∀ e ∈ s.enteredBefore node.id, e ∉ s.entered

section

variable {s s' : State} {t : ℕ} {pc pc' : Pc}

/-- A thread moves on, and may push. -/
lemma detached_goto (ht : s.threads[t]? = some pc) (pc' : Pc) (pushed : List Notify)
    (node : Notify) :
    ({ s with submitted := s.submitted ++ pushed }.goto t pc').detached node + pc.holds node =
      s.detached node + pc'.holds node + pushed.count node := by
  have hset := tally_set (w := Pc.holds node) (b := pc') ht
  simp only [State.detached, State.goto, List.count_append]
  omega

/-- A thread moves on with the notifies in its hand, or pushes some of them. -/
lemma Invariant.moved (h : Invariant s) (hgroup : s'.group = s.group)
    (hentered : s'.entered = s.entered) (hnext : s'.nextEnter = s.nextEnter)
    (hnextNotify : s'.nextNotify = s.nextNotify) (hregistered : s'.registered = s.registered)
    (hbefore : s'.enteredBefore = s.enteredBefore)
    (hdetached : ∀ node, s'.detached node = s.detached node) : Invariant s' where
  count := by rw [hgroup, hentered, h.count]
  entered := by rw [hentered, hnext]; exact h.entered
  fresh := by rw [hregistered, hnextNotify]; exact h.fresh
  distinct := by rw [hregistered]; exact h.distinct
  account node := by rw [hregistered, hgroup, hdetached, h.account]
  empty := by rw [hgroup]; exact h.empty
  before := by rw [hbefore, hnext]; exact h.before
  matched node hpos := by
    rw [hbefore, hentered]
    exact h.matched node (by rwa [hdetached] at hpos)

/-- A thread moves on that has no notify in its hand, before and after. -/
lemma detached_goto_same (ht : s.threads[t]? = some pc) (hpc : ∀ node, pc'.holds node = pc.holds node)
    (node : Notify) : (s.goto t pc').detached node = s.detached node := by
  simp only [State.detached, State.goto, tally_set_same ht (hpc node)]

/-- The code of `dispatch_group_wait` has no notify in its hand. -/
lemma holds_test {timed : Bool} {node : Notify} : (s.test timed).holds node = 0 := by
  rw [State.test]
  split <;> rfl

/-- The code of `dispatch_group_wait` has no notify in its hand. -/
lemma holds_wait {timeout : ℕ} {node : Notify} : (s.wait timeout).holds node = 0 := by
  rw [State.wait]
  split
  · exact holds_test
  · split
    · rfl
    · exact holds_test

/-- The code of `dispatch_group_wait` has no notify in its hand. -/
lemma holds_recheck {timed timedOut : Bool} {node : Notify} :
    (s.recheck timed timedOut).holds node = 0 := by
  rw [State.recheck]
  split
  · rfl
  · exact holds_test

/-- An enter. -/
lemma Invariant.enter (h : Invariant s) : Invariant s.enter where
  count := by
    change s.group.count + 1 = ((s.entered ++ [s.nextEnter]).length : ℤ)
    rw [h.count, List.length_append, List.length_singleton]
    omega
  entered e he := by
    change e < s.nextEnter + 1
    rcases List.mem_append.mp he with he | he
    · exact Nat.lt_succ_of_lt (h.entered e he)
    · rw [List.mem_singleton.mp he]
      exact Nat.lt_succ_self _
  fresh := h.fresh
  distinct := h.distinct
  account := h.account
  empty hzero := by
    change s.group.count + 1 = 0 at hzero
    have hcount := h.count
    omega
  before id e he := Nat.lt_succ_of_lt (h.before id e he)
  matched node hpos e he hmem := by
    rcases List.mem_append.mp hmem with hmem | hmem
    · exact h.matched node hpos e he hmem
    · rw [List.mem_singleton] at hmem
      exact absurd (h.before node.id e he) (by omega)

/-- A leave: it takes the notifies out of the list, all of them if the group is empty now. -/
lemma Invariant.left (h : Invariant s) (ht : s.threads[t]? = some .client) {e : ℕ}
    (he : e ∈ s.entered) (gen : ℕ) {rest pending : List Notify}
    (hlist : ∀ node, s.group.notifyHead.count node = rest.count node + pending.count node)
    (hrest : s.group.count - 1 = 0 → rest = [])
    (hpending : s.group.count - 1 ≠ 0 → pending = []) :
    Invariant ({ s with
      group := ⟨s.group.count - 1, rest⟩
      gen := gen
      entered := s.entered.erase e }.goto t (.submitting pending)) := by
  have hlength : ((s.entered.erase e).length : ℤ) = s.group.count - 1 := by
    have hpos : 0 < s.entered.length := List.length_pos_of_mem he
    rw [h.count, List.length_erase_of_mem he]
    omega
  have hdetached : ∀ node, ({ s with
      group := ⟨s.group.count - 1, rest⟩
      gen := gen
      entered := s.entered.erase e }.goto t (.submitting pending)).detached node =
        s.detached node + pending.count node := by
    intro node
    have hset := tally_set (w := Pc.holds node) (b := .submitting pending) ht
    simp only [State.detached, State.goto]
    simp only [Pc.holds] at hset ⊢
    omega
  constructor
  · exact hlength.symm
  · exact fun x hx => h.entered x (List.mem_of_mem_erase hx)
  · exact h.fresh
  · exact h.distinct
  · intro node
    have haccount := h.account node
    have hnode := hlist node
    rw [hdetached]
    change s.registered.count node = rest.count node + _
    omega
  · exact hrest
  · exact h.before
  · intro node hpos x hx hmem
    change x ∈ s.entered.erase e at hmem
    by_cases hzero : s.group.count - 1 = 0
    · have hnil : s.entered.erase e = [] := List.length_eq_zero_iff.mp (by omega)
      rw [hnil] at hmem
      cases hmem
    · rw [hdetached, hpending hzero, List.count_nil, Nat.add_zero] at hpos
      exact h.matched node hpos x hx (List.mem_of_mem_erase hmem)

/-- A notify is registered: it goes into the list, or, if the group is empty, to the thread. -/
lemma Invariant.noted (h : Invariant s) (ht : s.threads[t]? = some .client) (queue : ℕ)
    (head : List Notify) {pc : Pc}
    (hplace : ∀ node, head.count node + pc.holds node =
      s.group.notifyHead.count node + [Notify.mk s.nextNotify queue].count node)
    (hempty : s.group.count = 0 → head = [])
    (hpc : s.group.count ≠ 0 → ∀ node, pc.holds node = 0) :
    Invariant ({ s with
      group := { s.group with notifyHead := head }
      nextNotify := s.nextNotify + 1
      registered := s.registered ++ [Notify.mk s.nextNotify queue]
      enteredBefore := Function.update s.enteredBefore s.nextNotify s.entered }.goto t pc) := by
  have hnew : Notify.mk s.nextNotify queue ∉ s.registered := fun hmem =>
    absurd (h.fresh _ hmem) (Nat.lt_irrefl _)
  have hdetached : ∀ node, ({ s with
      group := { s.group with notifyHead := head }
      nextNotify := s.nextNotify + 1
      registered := s.registered ++ [Notify.mk s.nextNotify queue]
      enteredBefore := Function.update s.enteredBefore s.nextNotify s.entered }.goto t pc).detached
        node = s.detached node + pc.holds node := by
    intro node
    have hset := tally_set (w := Pc.holds node) (b := pc) ht
    simp only [State.detached, State.goto]
    simp only [Pc.holds] at hset ⊢
    omega
  constructor
  · exact h.count
  · exact h.entered
  · intro node hnode
    change node.id < s.nextNotify + 1
    rcases List.mem_append.mp hnode with hnode | hnode
    · exact Nat.lt_succ_of_lt (h.fresh node hnode)
    · rw [List.mem_singleton.mp hnode]
      exact Nat.lt_succ_self _
  · refine List.nodup_append.mpr ⟨h.distinct, List.nodup_singleton _, ?_⟩
    rintro a ha b hb rfl
    rw [List.mem_singleton] at hb
    exact hnew (hb ▸ ha)
  · intro node
    have haccount := h.account node
    have hnode := hplace node
    rw [hdetached]
    change (s.registered ++ [Notify.mk s.nextNotify queue]).count node = head.count node + _
    rw [List.count_append]
    omega
  · exact hempty
  · intro id e he
    change e ∈ Function.update s.enteredBefore s.nextNotify s.entered id at he
    by_cases hid : id = s.nextNotify
    · subst hid
      rw [Function.update_self] at he
      exact h.entered e he
    · rw [Function.update_of_ne hid] at he
      exact h.before id e he
  · intro node hpos e he hmem
    change e ∈ Function.update s.enteredBefore s.nextNotify s.entered node.id at he
    change e ∈ s.entered at hmem
    by_cases hid : node.id = s.nextNotify
    · have hcount := h.count
      have hlen : 0 < s.entered.length := List.length_pos_of_mem hmem
      have hnone : s.registered.count node = 0 := by
        refine List.count_eq_zero.mpr fun hreg => ?_
        exact absurd (h.fresh node hreg) (by omega)
      have haccount := h.account node
      rw [hdetached, hpc (by omega) node] at hpos
      omega
    · rw [Function.update_of_ne hid] at he
      refine h.matched node ?_ e he hmem
      rw [hdetached] at hpos
      have hnode := hplace node
      have hother : [Notify.mk s.nextNotify queue].count node = 0 := by
        refine List.count_eq_zero.mpr fun hnode => hid ?_
        rw [List.mem_singleton.mp hnode]
      have hcount := h.count
      have hlen : 0 < s.entered.length := List.length_pos_of_mem hmem
      rw [hpc (by omega) node] at hpos
      exact hpos

/-- **Every step keeps the account.**

**Proof sketch.** A notify leaves the list for the hand of one thread, or goes to it at once, in a
state in which every enter is matched; the enters that come later have other numbers than those
before its registration. -/
theorem Invariant.step (h : Invariant s) {a : Action} (hs : Step s a s') : Invariant s' := by
  cases hs with
  | enter ht => exact h.enter
  | @leave t e ht he hcount =>
    exact h.left ht he s.gen (fun node => by rw [List.count_nil, Nat.add_zero])
      (fun hzero => absurd hzero hcount) (fun _ => rfl)
  | leaveLast ht he hcount =>
    exact h.left ht he _ (fun node => by rw [List.count_nil, Nat.zero_add]) (fun _ => rfl)
      (fun hne => absurd hcount hne)
  | submitEnd ht =>
    exact h.moved rfl rfl rfl rfl rfl rfl (detached_goto_same ht fun _ => rfl)
  | @submit t node rest ht =>
    refine h.moved rfl rfl rfl rfl rfl rfl fun n => ?_
    have hdetached := detached_goto ht (.submitting rest) [node] n
    simp only [Pc.holds, List.count_cons, List.count_nil] at hdetached
    omega
  | @async t queue ht =>
    exact h.enter.moved rfl rfl rfl rfl rfl rfl (detached_goto_same (s := s.enter) ht fun _ => rfl)
  | push ht =>
    exact h.moved rfl rfl rfl rfl rfl rfl (detached_goto_same ht fun _ => rfl)
  | @notify t queue ht hcount =>
    refine h.noted ht queue _ (fun node => ?_) (fun hzero => absurd hzero hcount) (fun _ _ => rfl)
    simp only [Pc.holds, List.count_cons, List.count_nil]
    omega
  | @notifyNow t queue ht hcount =>
    have hhead := h.empty hcount
    refine h.noted ht queue s.group.notifyHead (fun node => ?_) (fun _ => hhead)
      (fun hne => absurd hcount hne)
    simp only [Pc.holds, List.count_cons, List.count_nil, beq_iff_eq]
    omega
  | @fire t node ht =>
    refine h.moved rfl rfl rfl rfl rfl rfl fun n => ?_
    have hdetached := detached_goto ht .client [node] n
    simp only [Pc.holds, List.count_cons, List.count_nil, beq_iff_eq] at hdetached
    omega
  | wait ht =>
    exact h.moved rfl rfl rfl rfl rfl rfl (detached_goto_same ht fun _ => holds_wait)
  | wake ht hgen =>
    exact h.moved rfl rfl rfl rfl rfl rfl (detached_goto_same ht fun _ => rfl)
  | timeOut ht =>
    exact h.moved rfl rfl rfl rfl rfl rfl (detached_goto_same ht fun _ => rfl)
  | recheck ht =>
    exact h.moved rfl rfl rfl rfl rfl rfl (detached_goto_same ht fun _ => holds_recheck)
  | resume ht =>
    exact h.moved rfl rfl rfl rfl rfl rfl (detached_goto_same ht fun _ => rfl)

/-! ## What clients rely on -/

/-- What the clients of a group rely on. -/
structure Fires (s : State) : Prop where
  /-- A notify is in the list, in the hand of a thread, or pushed, and only once. -/
  once : ∀ node ∈ s.registered, s.group.notifyHead.count node +
    tally (Pc.holds node) s.threads + s.submitted.count node = 1
  /-- Nothing else is pushed. -/
  registered : ∀ node ∈ s.submitted, node ∈ s.registered
  /-- When the group is empty and no thread has a notify in its hand, each was pushed. -/
  settled : s.group.count = 0 → (∀ pc ∈ s.threads, ∀ node, pc.holds node = 0) →
    ∀ node ∈ s.registered, s.submitted.count node = 1
  /-- The enters that were unmatched at the registration of a notify that was pushed are
  matched. -/
  notEarly : ∀ node ∈ s.submitted, ∀ e ∈ s.enteredBefore node.id, e ∉ s.entered
  /-- An empty group has no notifies. -/
  noneLeft : s.group.count = 0 → s.group.notifyHead = []
  /-- `dispatch_group_wait` returns 0 only while the group is empty. -/
  waited : ∀ (a : Action) (s' : State) (t : ℕ), step s a = some s' →
    s'.threads[t]? = some (.returned 0) → s.threads[t]? ≠ some (.returned 0) → s.group.count = 0

/-- `dispatch_group_wait` returns 0 from its test only if the count is not positive. -/
lemma test_eq_returned {timed : Bool} {result : ℤ} (h : s.test timed = .returned result) :
    ¬0 < s.group.count := by
  rw [State.test] at h
  split at h
  · cases h
  · assumption

/-- `dispatch_group_wait` returns 0 at once only if the count is not positive. -/
lemma wait_eq_returned {timeout : ℕ} (h : s.wait timeout = .returned 0) : ¬0 < s.group.count := by
  rw [State.wait] at h
  split at h
  · exact test_eq_returned h
  · split at h
    · intro hpos
      rw [if_pos hpos] at h
      cases h
    · exact test_eq_returned h

/-- `dispatch_group_wait` returns 0 after a wait only if the count is not positive. -/
lemma recheck_eq_returned {timed timedOut : Bool} (h : s.recheck timed timedOut = .returned 0) :
    ¬0 < s.group.count := by
  rw [State.recheck] at h
  split at h
  · cases h
  · exact test_eq_returned h

/-- The threads of a state in which one has moved on. -/
lemma threads_goto {i : ℕ} (h : (s.goto t pc').threads[i]? = some pc) :
    (i = t ∧ pc = pc') ∨ s.threads[i]? = some pc := by
  have hset : (s.threads.set t pc')[i]? = some pc := h
  rw [List.getElem?_set] at hset
  split at hset
  · next hi =>
    split at hset
    · exact .inl ⟨hi.symm, (Option.some_inj.mp hset).symm⟩
    · cases hset
  · exact .inr hset

/-- A wait that returns 0 does so under the lock, with the count at hand. -/
lemma Invariant.waited (h : Invariant s) {a : Action} (hs : Step s a s') {i : ℕ}
    (hnow : s'.threads[i]? = some (.returned 0)) (hbefore : s.threads[i]? ≠ some (.returned 0)) :
    s.group.count = 0 := by
  have hcount := h.count
  have hmoved : ∀ {r : State} {t : ℕ} {pc : Pc}, r.threads = s.threads →
      (r.goto t pc).threads[i]? = some (.returned 0) → pc = .returned 0 := by
    intro r t pc hr hgoto
    rcases threads_goto hgoto with ⟨-, hpc⟩ | hold
    · exact hpc.symm
    · exact absurd (hr ▸ hold) hbefore
  cases hs with
  | enter ht => exact absurd hnow hbefore
  | leave ht he hzero => exact Pc.noConfusion (hmoved rfl hnow)
  | leaveLast ht he hzero => exact Pc.noConfusion (hmoved rfl hnow)
  | submitEnd ht => exact Pc.noConfusion (hmoved rfl hnow)
  | submit ht => exact Pc.noConfusion (hmoved rfl hnow)
  | async ht => exact Pc.noConfusion (hmoved rfl hnow)
  | push ht => exact Pc.noConfusion (hmoved rfl hnow)
  | notify ht hzero => exact Pc.noConfusion (hmoved rfl hnow)
  | notifyNow ht hzero => exact Pc.noConfusion (hmoved rfl hnow)
  | fire ht => exact Pc.noConfusion (hmoved rfl hnow)
  | wait ht =>
    have hzero := wait_eq_returned (hmoved rfl hnow)
    omega
  | wake ht hgen => exact Pc.noConfusion (hmoved rfl hnow)
  | timeOut ht => exact Pc.noConfusion (hmoved rfl hnow)
  | recheck ht =>
    have hzero := recheck_eq_returned (hmoved rfl hnow)
    omega
  | resume ht => exact Pc.noConfusion (hmoved rfl hnow)

/-- At first. -/
lemma Invariant.init (n : ℕ) : Invariant (init n) := by
  have hdetached : ∀ node, (Group.init n).detached node = 0 := by
    intro node
    rw [State.detached, tally_eq_zero]
    · rfl
    · intro pc hpc
      rw [List.eq_of_mem_replicate hpc]
      rfl
  exact ⟨rfl, nofun, nofun, List.nodup_nil, fun node => by rw [hdetached]; rfl, fun _ => rfl,
    fun _ => nofun, fun node hpos => absurd (hdetached node) (by omega)⟩

/-- **Notifies fire once, and not before the group was empty.** In every state that any number of
threads reach: each notify that was registered is in the list, in the hand of the thread that is to
push it, or pushed, and only once; one that was pushed has none of the enters before its
registration unmatched; none is in the list while the count is 0, so that with the count at 0 and
no thread on the way each was pushed; and `dispatch_group_wait` returns 0 only while the count is
0. -/
theorem firing (n : ℕ) (as : List Action) (h : Transition.exec step (init n) as = some s) :
    Fires s := by
  have hinv : Invariant s := Transition.invariant
    (fun _ _ _ hr hstep => Invariant.step hr (Step.of_step hstep)) (.init n) h
  have honce : ∀ node ∈ s.registered, s.group.notifyHead.count node +
      tally (Pc.holds node) s.threads + s.submitted.count node = 1 := by
    intro node hnode
    have haccount := hinv.account node
    rw [List.count_eq_one_of_mem hinv.distinct hnode, State.detached] at haccount
    omega
  constructor
  · exact honce
  · intro node hnode
    have haccount := hinv.account node
    have hpos := List.count_pos_iff.mpr hnode
    rw [State.detached] at haccount
    exact List.count_pos_iff.mp (by omega)
  · intro hzero hidle node hnode
    have hplace := honce node hnode
    rw [hinv.empty hzero, List.count_nil, tally_eq_zero fun pc hpc => hidle pc hpc node] at hplace
    omega
  · intro node hnode
    refine hinv.matched node ?_
    rw [State.detached]
    exact Nat.lt_of_lt_of_le (List.count_pos_iff.mpr hnode) (Nat.le_add_left _ _)
  · exact hinv.empty
  · exact fun a s' t hstep => hinv.waited (Step.of_step hstep)

end

/-- A notify is registered between two enters, the count reaches 0 with the notify in hand, rises
again, and the notify is pushed. -/
theorem firing_reentered :
    ∃ s, Transition.exec step (init 2) [.enter 0, .notify 1 7, .leave 0 0, .enter 1, .submit 0,
      .submit 0] = some s ∧ s.submitted = [⟨0, 7⟩] ∧ s.group.count = 1 ∧ Fires s := by
  obtain ⟨s, hs, hsubmitted, hcount⟩ : ∃ s, Transition.exec step (init 2) [.enter 0, .notify 1 7,
      .leave 0 0, .enter 1, .submit 0, .submit 0] = some s ∧ s.submitted = [⟨0, 7⟩] ∧
        s.group.count = 1 := ⟨_, rfl, rfl, rfl⟩
  exact ⟨s, hs, hsubmitted, hcount, firing 2 _ hs⟩

end Asteros.Dispatch.Group
