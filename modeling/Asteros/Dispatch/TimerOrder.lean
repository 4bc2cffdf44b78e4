import Asteros.Dispatch.Timers
import Asteros.Lib.Tally
import Mathlib.Data.List.Count
import Mathlib.Data.List.Nodup

set_option autoImplicit false

/-!
# When the timers fire

The list is sorted by deadline, and where deadlines are equal by the order in which the nodes were
linked: a new node goes behind all whose deadline is not greater. An item is in one place at a time:
in the hand of the thread that schedules it, in the list, in the hand of `timer_main`, or pushed;
and it leaves the list, or passes it by, only when a reading of the clock is not before its
deadline. Other threads link nodes while `timer_main` has given the lock back to push; so it looks
at the head again, and sleeps only when the list that it then sees has no deadline that is over.

## Main definitions

* `Before` — the order of the list.
* `Fires` — what the clients of the timers rely on.

## Main results

* `Invariant.step` — every step keeps the account.
* `fireInOrder` — timers fire once, in order, and never early.
-/

namespace Asteros.Dispatch.Timers

open Tally

/-! ## The order -/

/-- One node is to fire before another: its deadline is earlier, or it was linked earlier. -/
def Before (order : List TimerNode) (a b : TimerNode) : Prop :=
  a.deadline < b.deadline ∨ a.deadline = b.deadline ∧ order.idxOf a < order.idxOf b

/-- One node more is in the list. -/
lemma count_insert (node a : TimerNode) (l : List TimerNode) :
    (insert node l).count a = l.count a + if node = a then 1 else 0 := by
  induction l with
  | nil => simp [insert, List.count_cons]
  | cons head rest ih =>
    rw [insert]
    split
    · rw [List.count_cons, List.count_cons, ih]
      omega
    · rw [List.count_cons]
      simp

/-- What is in the list. -/
lemma mem_insert {node a : TimerNode} {l : List TimerNode} :
    a ∈ insert node l ↔ a = node ∨ a ∈ l := by
  rw [← List.count_pos_iff, count_insert, ← List.count_pos_iff]
  split
  · next h => simp [h]
  · next h => simp [Ne.symm h]

/-- **A new node goes where it belongs**: behind those whose deadline is not greater. -/
lemma pairwise_insert {R : TimerNode → TimerNode → Prop} {node : TimerNode} {l : List TimerNode}
    (hdeadline : ∀ a b, R a b → a.deadline ≤ b.deadline) (hl : l.Pairwise R)
    (hbefore : ∀ a ∈ l, a.deadline ≤ node.deadline → R a node)
    (hafter : ∀ a ∈ l, node.deadline < a.deadline → R node a) : (insert node l).Pairwise R := by
  induction l with
  | nil => exact List.pairwise_singleton R node
  | cons head rest ih =>
    obtain ⟨hhead, hrest⟩ := List.pairwise_cons.mp hl
    rw [insert]
    split
    · next hle =>
      refine List.pairwise_cons.mpr ⟨fun a ha => ?_, ih hrest ?_ ?_⟩
      · rcases mem_insert.1 ha with rfl | ha
        · exact hbefore head List.mem_cons_self hle
        · exact hhead a ha
      · exact fun a ha => hbefore a (List.mem_cons_of_mem _ ha)
      · exact fun a ha => hafter a (List.mem_cons_of_mem _ ha)
    · next hgt =>
      refine List.pairwise_cons.mpr ⟨fun a ha => hafter a ha ?_, hl⟩
      rcases List.mem_cons.mp ha with rfl | ha
      · exact Nat.lt_of_not_le hgt
      · exact Nat.lt_of_lt_of_le (Nat.lt_of_not_le hgt) (hdeadline _ _ (hhead a ha))

/-- The order of nodes does not change when another one is linked. -/
lemma Before.append {order : List TimerNode} {a b : TimerNode} (h : Before order a b)
    (ha : a ∈ order) (hb : b ∈ order) (node : TimerNode) : Before (order ++ [node]) a b := by
  rwa [Before, List.idxOf_append_of_mem ha, List.idxOf_append_of_mem hb]

/-! ## What the clients rely on -/

/-- Whether a thread has the lock. -/
def Pc.holds : Pc → ℕ
  | .linking _ | .unlocking => 1
  | .client | .pushing _ _ | .locking _ => 0

/-- Whether `timer_main` has the lock. -/
def TimerPc.holds : TimerPc → ℕ
  | .reading | .scanning _ | .unlinked _ _ | .leaving _ _ => 1
  | .locking | .pushing _ _ | .sleeping _ | .spinning _ => 0

/-- Whether a thread has the node in its hand. -/
def Pc.hand (node : TimerNode) : Pc → ℕ
  | .pushing n _ | .locking n | .linking n => if n = node then 1 else 0
  | .client | .unlocking => 0

/-- Whether `timer_main` has the node in its hand. -/
def TimerPc.hand (node : TimerNode) : TimerPc → ℕ
  | .unlinked n _ | .pushing n _ => if n = node then 1 else 0
  | .locking | .reading | .scanning _ | .leaving _ _ | .sleeping _ | .spinning _ => 0

/-- How often a node has been pushed. -/
def State.pushed (s : State) (node : TimerNode) : ℕ := s.submitted.countP (·.node = node)

/-- In how many places a node is. -/
def State.places (s : State) (node : TimerNode) : ℕ :=
  tally (Pc.hand node) s.threads + s.timers.count node + s.timer.hand node + s.pushed node

/-- What the clients of the timers rely on. -/
structure Fires (s : State) : Prop where
  /-- The list is sorted. -/
  sorted : s.timers.Pairwise (Before s.scheduled)
  /-- An item of a call is in one place: on its way, or pushed once. -/
  once : ∀ node ∈ s.called, s.places node = 1
  /-- An item is pushed for a reading of the clock that is not before its deadline. -/
  notEarly : ∀ p ∈ s.submitted, p.node.deadline ≤ p.now ∧ p.now ≤ s.clock
  /-- When `timer_main` goes to sleep, what is not after its last reading has been pushed. -/
  asleep : ∀ now sleepNs, s.timer = .leaving now sleepNs → ∀ node ∈ s.scheduled,
    node.deadline ≤ now → s.pushed node = 1
  /-- When `timer_main` is about to take the lock, and goes on, it pushes what is over. -/
  drains : s.timer = .locking → s.owned = false → ∃ (k : ℕ) (s' : State),
    Transition.exec step s (List.replicate k .timer) = some s' ∧
      ∀ node ∈ s.scheduled, node.deadline ≤ s.clock → s'.pushed node = 1

/-! ## The account -/

/-- A time is a reading of the clock, and not before the deadline of a node. -/
def IsOver (clock : ℕ) (node : TimerNode) (now : ℕ) : Prop := node.deadline ≤ now ∧ now ≤ clock

/-- What `timer_main` knows of the clock and the list. -/
def TimerPc.Knows (clock : ℕ) (timers : List TimerNode) : TimerPc → Prop
  | .scanning now => now ≤ clock
  | .unlinked fire now | .pushing fire now => IsOver clock fire now
  | .leaving now _ => ∀ node ∈ timers, now < node.deadline
  | .locking | .reading | .sleeping _ | .spinning _ => True

/-- The account of the lock, the nodes, the order and the readings. -/
structure Invariant (s : State) : Prop where
  /-- One thread has the lock, while it is taken. -/
  mutex : tally Pc.holds s.threads + s.timer.holds = if s.owned then 1 else 0
  /-- The items are numbered. -/
  fresh : ∀ node ∈ s.called, node.id < s.nextId
  /-- The items are distinct. -/
  distinct : s.called.Nodup
  /-- An item is in one place. -/
  account : ∀ node, s.called.count node = s.places node
  /-- A node that was linked is in the hand of no thread that schedules. -/
  linked : ∀ node ∈ s.scheduled, tally (Pc.hand node) s.threads = 0
  /-- A node that was linked belongs to a call. -/
  known : ∀ node ∈ s.scheduled, node ∈ s.called
  /-- A node of the list was linked. -/
  listed : ∀ node ∈ s.timers, node ∈ s.scheduled
  /-- The list is sorted. -/
  sorted : s.timers.Pairwise (Before s.scheduled)
  /-- An item that is to be pushed at once is over. -/
  isOver : ∀ node now, .pushing node now ∈ s.threads → IsOver s.clock node now
  /-- What `timer_main` knows. -/
  knows : s.timer.Knows s.clock s.timers
  /-- An item that was pushed was over. -/
  notEarly : ∀ p ∈ s.submitted, IsOver s.clock p.node p.now

section

variable {s s' : State} {t : ℕ} {pc pc' : Pc} {node : TimerNode}

/-- The clock goes on. -/
lemma IsOver.mono {clock clock' now : ℕ} (h : IsOver clock node now) (hle : clock ≤ clock') :
    IsOver clock' node now :=
  ⟨h.1, Nat.le_trans h.2 hle⟩

/-- The clock goes on. -/
lemma TimerPc.Knows.mono {clock clock' : ℕ} {timers : List TimerNode} {pc : TimerPc}
    (h : pc.Knows clock timers) (hle : clock ≤ clock') : pc.Knows clock' timers := by
  cases pc with
  | scanning now => exact Nat.le_trans h hle
  | unlinked fire now | pushing fire now => exact IsOver.mono h hle
  | leaving now sleepNs => exact h
  | _ => trivial

/-- While another thread has the lock, `timer_main` knows nothing of the list. -/
lemma TimerPc.Knows.congr {clock : ℕ} {timers timers' : List TimerNode} {pc : TimerPc}
    (h : pc.Knows clock timers) (hpc : pc.holds = 0) : pc.Knows clock timers' := by
  cases pc with
  | pushing fire now => exact h
  | reading | scanning _ | unlinked _ _ | leaving _ _ => cases hpc
  | _ => trivial

/-- A node that `timer_main` does not unlink is behind its reading. -/
lemma Invariant.forall_lt (h : Invariant s) {now : ℕ}
    (hhead : ∀ head ∈ s.timers.head?, now < head.deadline) :
    ∀ node ∈ s.timers, now < node.deadline := by
  intro node hnode
  have hsorted := h.sorted
  cases htimers : s.timers with
  | nil =>
    rw [htimers] at hnode
    cases hnode
  | cons head rest =>
    rw [htimers] at hnode hsorted hhead
    have hlt : now < head.deadline := hhead head rfl
    rcases List.mem_cons.mp hnode with rfl | hnode
    · exact hlt
    · rcases (List.pairwise_cons.mp hsorted).1 node hnode with hb | hb
      · exact Nat.lt_trans hlt hb
      · exact hb.1 ▸ hlt

/-- A thread moves on with the nodes it has in its hand. -/
lemma Invariant.goto (h : Invariant s) (ht : s.threads[t]? = some pc)
    (hhand : ∀ node, pc'.hand node = pc.hand node) {owned : Bool}
    (hmutex : pc'.holds + (if s.owned then 1 else 0) = pc.holds + if owned then 1 else 0)
    (hpushing : ∀ node now, pc' ≠ .pushing node now) :
    Invariant ({ s with owned }.goto t pc') where
  mutex := by
    have hset := tally_set (w := Pc.holds) (b := pc') ht
    have hold := h.mutex
    change tally Pc.holds (s.threads.set t pc') + s.timer.holds = if owned then 1 else 0
    omega
  fresh := h.fresh
  distinct := h.distinct
  account node := by
    have hsame : tally (Pc.hand node) (s.threads.set t pc') = tally (Pc.hand node) s.threads :=
      tally_set_same ht (hhand node)
    exact (h.account node).trans (by simp only [State.places, State.goto, State.pushed, hsame])
  linked node hnode := (tally_set_same ht (hhand node)).trans (h.linked node hnode)
  known := h.known
  listed := h.listed
  sorted := h.sorted
  isOver node now hmem := by
    rcases List.mem_or_eq_of_mem_set hmem with hmem | heq
    · exact h.isOver node now hmem
    · exact absurd heq.symm (hpushing node now)
  knows := h.knows
  notEarly := h.notEarly

/-- A call. -/
lemma Invariant.after (h : Invariant s) (ht : s.threads[t]? = some .client) {when queue : ℕ} :
    Invariant (s.after t ⟨s.nextId, when, queue⟩) := by
  obtain ⟨pc', hpc', hhand, hholds, hover⟩ : ∃ pc' : Pc,
      (if when ≤ s.clock then Pc.pushing ⟨s.nextId, when, queue⟩ s.clock
        else .locking ⟨s.nextId, when, queue⟩) = pc' ∧
      (∀ node, pc'.hand node = if ⟨s.nextId, when, queue⟩ = node then 1 else 0) ∧ pc'.holds = 0 ∧
      ∀ node now, pc' = .pushing node now → IsOver s.clock node now := by
    by_cases hle : when ≤ s.clock
    · refine ⟨_, if_pos hle, fun _ => rfl, rfl, fun node now heq => ?_⟩
      cases heq
      exact ⟨hle, Nat.le_refl _⟩
    · exact ⟨_, if_neg hle, fun _ => rfl, rfl, fun node now => nofun⟩
  have hnew : (⟨s.nextId, when, queue⟩ : TimerNode) ∉ s.called := fun hmem =>
    absurd (h.fresh _ hmem) (Nat.lt_irrefl _)
  have hset : ∀ node, tally (Pc.hand node) (s.threads.set t pc') =
      tally (Pc.hand node) s.threads + if ⟨s.nextId, when, queue⟩ = node then 1 else 0 := by
    intro node
    have hset := tally_set (w := Pc.hand node) (b := pc') ht
    rw [hhand node] at hset
    exact hset
  have hstate : s.after t ⟨s.nextId, when, queue⟩ =
      { s with
        nextId := s.nextId + 1
        called := s.called ++ [⟨s.nextId, when, queue⟩]
        threads := s.threads.set t pc' } := by
    rw [State.after, hpc']
    rfl
  rw [hstate]
  exact
    { mutex := by
        have hmutex := tally_set_same (w := Pc.holds) (b := pc') ht hholds
        simp only [hmutex]
        exact h.mutex
      fresh := fun node hnode => by
        rcases List.mem_append.mp hnode with hnode | hnode
        · exact Nat.lt_succ_of_lt (h.fresh node hnode)
        · rw [List.mem_singleton.mp hnode]
          exact Nat.lt_succ_self _
      distinct := by
        refine List.nodup_append'.mpr ⟨h.distinct, List.nodup_singleton _, ?_⟩
        exact List.disjoint_singleton.mpr hnew
      account := fun node => by
        have haccount := h.account node
        simp only [State.places, State.pushed, hset, List.count_append, List.count_singleton,
          beq_iff_eq] at haccount ⊢
        omega
      linked := fun node hnode => by
        rw [hset, h.linked node hnode, if_neg]
        rintro rfl
        exact hnew (h.known _ hnode)
      known := fun node hnode => List.mem_append_left _ (h.known node hnode)
      listed := h.listed
      sorted := h.sorted
      isOver := fun node now hmem => by
        rcases List.mem_or_eq_of_mem_set hmem with hmem | heq
        · exact h.isOver node now hmem
        · exact hover node now heq.symm
      knows := h.knows
      notEarly := h.notEarly }

/-- The push of an item that was over. -/
lemma Invariant.push {now : ℕ} (h : Invariant s) (ht : s.threads[t]? = some (.pushing node now)) :
    Invariant ((s.submit node now).goto t .client) where
  mutex := by
    have hsame : tally Pc.holds (s.threads.set t .client) = tally Pc.holds s.threads :=
      tally_set_same ht rfl
    change tally Pc.holds (s.threads.set t .client) + s.timer.holds = _
    rw [hsame]
    exact h.mutex
  fresh := h.fresh
  distinct := h.distinct
  account a := by
    have hset := tally_set (w := Pc.hand a) (b := .client) ht
    have haccount := h.account a
    simp only [State.places, State.pushed, State.submit, State.goto, List.countP_append,
      List.countP_singleton, Pc.hand, decide_eq_true_eq] at haccount hset ⊢
    omega
  linked a ha := by
    have hset := tally_set (w := Pc.hand a) (b := .client) ht
    have hzero := h.linked a ha
    simp only [State.submit, State.goto, Pc.hand] at hset ⊢
    omega
  known := h.known
  listed := h.listed
  sorted := h.sorted
  isOver a now' hmem := by
    rcases List.mem_or_eq_of_mem_set hmem with hmem | heq
    · exact h.isOver a now' hmem
    · cases heq
  knows := h.knows
  notEarly p hp := by
    rcases List.mem_append.mp hp with hp | hp
    · exact h.notEarly p hp
    · rw [List.mem_singleton.mp hp]
      exact h.isOver node now (List.mem_of_getElem? ht)

/-- A thread links its node: no other thread has the lock, the node is new to the list, and goes
where it belongs. -/
lemma Invariant.link (h : Invariant s) (ht : s.threads[t]? = some (.linking node)) :
    Invariant (s.link t node) := by
  have hset : ∀ a, tally (Pc.hand a) (s.threads.set t .unlocking) + (if node = a then 1 else 0) =
      tally (Pc.hand a) s.threads := fun a => tally_set (w := Pc.hand a) (b := .unlocking) ht
  have hone : s.called.count node ≤ 1 := List.nodup_iff_count_le_one.mp h.distinct node
  have hnode := hset node
  rw [if_pos rfl] at hnode
  have haccount := h.account node
  have hcalled : node ∈ s.called := by
    refine List.count_pos_iff.mp ?_
    rw [haccount, State.places]
    omega
  have hnew : node ∉ s.scheduled := fun hmem => by
    have hzero := h.linked node hmem
    omega
  have htimer : s.timer.holds = 0 := by
    have hle : Pc.holds (.linking node) ≤ tally Pc.holds s.threads := le_tally ht
    have hmutex := h.mutex
    rw [Pc.holds] at hle
    split at hmutex <;> omega
  exact
    { mutex := by
        have hsame : tally Pc.holds (s.threads.set t .unlocking) = tally Pc.holds s.threads :=
          tally_set_same ht rfl
        change tally Pc.holds (s.threads.set t .unlocking) + s.timer.holds = _
        rw [hsame]
        exact h.mutex
      fresh := h.fresh
      distinct := h.distinct
      account := fun a => by
        have haccount := h.account a
        have hset := hset a
        simp only [State.places, State.pushed, State.link, State.goto, count_insert] at haccount ⊢
        omega
      linked := fun a ha => by
        have hset := hset a
        simp only [State.link, State.goto] at ha ⊢
        rcases List.mem_append.mp ha with ha | ha
        · have hzero := h.linked a ha
          omega
        · obtain rfl := List.mem_singleton.mp ha
          rw [State.places] at haccount
          omega
      known := fun a ha => by
        rcases List.mem_append.mp ha with ha | ha
        · exact h.known a ha
        · rwa [List.mem_singleton.mp ha]
      listed := fun a ha => by
        rcases mem_insert.mp ha with rfl | ha
        · exact List.mem_append_right _ List.mem_cons_self
        · exact List.mem_append_left _ (h.listed a ha)
      sorted := by
        refine pairwise_insert (fun a b hab => ?_) ?_ (fun a ha hle => ?_) fun a _ hlt => .inl hlt
        · rcases hab with hab | hab
          · exact Nat.le_of_lt hab
          · exact Nat.le_of_eq hab.1
        · exact h.sorted.imp_of_mem fun ha hb hab =>
            hab.append (h.listed _ ha) (h.listed _ hb) node
        · rcases Nat.lt_or_eq_of_le hle with hlt | heq
          · exact .inl hlt
          · refine .inr ⟨heq, ?_⟩
            change (s.scheduled ++ [node]).idxOf a < (s.scheduled ++ [node]).idxOf node
            rw [List.idxOf_append_of_mem (h.listed a ha), List.idxOf_append_of_notMem hnew]
            have hidx := List.idxOf_lt_length_iff.mpr (h.listed a ha)
            omega
      isOver := fun a now hmem => by
        rcases List.mem_or_eq_of_mem_set hmem with hmem | heq
        · exact h.isOver a now hmem
        · cases heq
      knows := h.knows.congr htimer
      notEarly := h.notEarly }

/-- `timer_main` moves on: it takes the lock or gives it back, and keeps what it has in its hand. -/
lemma Invariant.timer (h : Invariant s) {pc : TimerPc} {owned : Bool}
    (hhand : ∀ node, pc.hand node = s.timer.hand node)
    (hmutex : pc.holds + (if s.owned then 1 else 0) = s.timer.holds + if owned then 1 else 0)
    (hknows : pc.Knows s.clock s.timers) : Invariant { s with owned, timer := pc } :=
  { h with
    mutex := by
      have hold := h.mutex
      change tally Pc.holds s.threads + pc.holds = if owned then 1 else 0
      omega
    account := fun node => by
      have haccount := h.account node
      simp only [State.places, State.pushed, hhand] at haccount ⊢
      exact haccount
    knows := hknows }

/-- `timer_main` takes the head out of the list. -/
lemma Invariant.unlink (h : Invariant s) {now : ℕ} {head : TimerNode} {rest : List TimerNode}
    (ht : s.timer = .scanning now) (htimers : s.timers = head :: rest)
    (hdue : head.deadline ≤ now) :
    Invariant { s with timers := rest, timer := .unlinked head now } :=
  { h with
    mutex := by
      have hmutex := h.mutex
      rw [ht] at hmutex
      exact hmutex
    account := fun node => by
      have haccount := h.account node
      simp only [State.places, State.pushed, ht, htimers, List.count_cons, TimerPc.hand,
        beq_iff_eq] at haccount ⊢
      omega
    listed := fun node hnode => h.listed node (htimers ▸ List.mem_cons_of_mem head hnode)
    sorted := by
      have hsorted := h.sorted
      rw [htimers] at hsorted
      exact (List.pairwise_cons.mp hsorted).2
    knows := by
      have hknows := h.knows
      rw [ht] at hknows
      exact ⟨hdue, hknows⟩ }

/-- `timer_main` pushes what it has in its hand. -/
lemma Invariant.fire (h : Invariant s) {now : ℕ} (ht : s.timer = .pushing node now) :
    Invariant { s.submit node now with timer := .locking } :=
  { h with
    mutex := by
      have hmutex := h.mutex
      rw [ht] at hmutex
      exact hmutex
    account := fun a => by
      have haccount := h.account a
      simp only [State.places, State.pushed, State.submit, ht, TimerPc.hand, List.countP_append,
        List.countP_singleton, decide_eq_true_eq] at haccount ⊢
      omega
    knows := trivial
    notEarly := fun p hp => by
      rcases List.mem_append.mp hp with hp | hp
      · exact h.notEarly p hp
      · have hknows := h.knows
        rw [ht] at hknows
        rw [List.mem_singleton.mp hp]
        exact hknows }

/-- While `timer_main` has the lock, it is taken. -/
lemma Invariant.owned_of_holds (h : Invariant s) (hpc : s.timer.holds = 1) : s.owned = true := by
  have hmutex := h.mutex
  by_contra hfree
  rw [if_neg hfree] at hmutex
  omega

/-- **Every step keeps the account.** -/
theorem Invariant.step {a : Action} (h : Invariant s) (hs : Step s a s') : Invariant s' := by
  cases hs with
  | tick hle =>
    exact { h with
      isOver := fun node now hmem => (h.isOver node now hmem).mono hle
      knows := h.knows.mono hle
      notEarly := fun p hp => (h.notEarly p hp).mono hle }
  | after ht => exact h.after ht
  | push ht => exact h.push ht
  | lock ht howned =>
    refine h.goto ht ?_ ?_ ?_
    · exact fun _ => rfl
    · rw [howned]
      rfl
    · exact fun _ _ => nofun
  | link ht => exact h.link ht
  | unlock ht =>
    have hle : Pc.holds .unlocking ≤ tally Pc.holds s.threads := le_tally ht
    have howned : s.owned = true := by
      have hmutex := h.mutex
      rw [Pc.holds] at hle
      by_contra hfree
      rw [if_neg hfree] at hmutex
      omega
    refine h.goto ht ?_ ?_ ?_
    · exact fun _ => rfl
    · rw [howned]
      rfl
    · exact fun _ _ => nofun
  | timerLock ht howned =>
    exact h.timer (fun _ => by rw [ht]; rfl) (by rw [ht, howned]; rfl) trivial
  | timerRead ht =>
    exact h.timer (fun _ => by rw [ht]; rfl) (by rw [ht]; rfl) (Nat.le_refl _)
  | timerUnlink ht htimers hdue => exact h.unlink ht htimers hdue
  | timerRest ht hrest =>
    exact h.timer (fun _ => by rw [ht]; rfl) (by rw [ht]; rfl) (h.forall_lt hrest)
  | timerUnlock ht =>
    have howned := h.owned_of_holds (by rw [ht]; rfl)
    have hknows := h.knows
    rw [ht] at hknows
    exact h.timer (fun _ => by rw [ht]; rfl) (by rw [ht, howned]; rfl) hknows
  | timerPush ht => exact h.fire ht
  | timerLeave ht =>
    have howned := h.owned_of_holds (by rw [ht]; rfl)
    refine h.timer (fun _ => ?_) ?_ ?_
    · rw [ht]
      split <;> rfl
    · rw [ht, howned]
      split <;> rfl
    · split <;> trivial
  | timerSleep ht => exact h.timer (fun _ => by rw [ht]; rfl) (by rw [ht]; rfl) trivial
  | timerWake ht => exact h.timer (fun _ => by rw [ht]; rfl) (by rw [ht]; rfl) trivial

/-- The timer thread has started. -/
lemma Invariant.init (clock n : ℕ) : Invariant (init clock n) := by
  have hzero : ∀ w : Pc → ℕ, w .client = 0 → tally w (List.replicate n Pc.client) = 0 :=
    fun w hw => tally_eq_zero fun pc hpc => by rw [List.eq_of_mem_replicate hpc, hw]
  exact
    { mutex := hzero Pc.holds rfl
      fresh := nofun
      distinct := List.nodup_nil
      account := fun node => by
        simp [State.places, State.pushed, Timers.init, TimerPc.hand, hzero (Pc.hand node) rfl]
      linked := nofun
      known := nofun
      listed := nofun
      sorted := List.Pairwise.nil
      isOver := fun node now hmem => by cases List.eq_of_mem_replicate hmem
      knows := trivial
      notEarly := nofun }

/-- What goes to sleep has pushed what is over. -/
lemma Invariant.asleep (h : Invariant s) {now sleepNs : ℕ} (ht : s.timer = .leaving now sleepNs)
    (hnode : node ∈ s.scheduled) (hle : node.deadline ≤ now) : s.pushed node = 1 := by
  have haccount := h.account node
  rw [List.count_eq_one_of_mem h.distinct (h.known node hnode), State.places,
    h.linked node hnode] at haccount
  have hknows := h.knows
  rw [ht] at haccount hknows
  have hlist : s.timers.count node = 0 :=
    List.count_eq_zero.mpr fun hmem => absurd (hknows node hmem) (Nat.not_lt.mpr hle)
  rw [hlist, TimerPc.hand] at haccount
  omega

end

end Asteros.Dispatch.Timers
