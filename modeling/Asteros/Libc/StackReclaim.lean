import Asteros.Libc.Pthread
import Mathlib.Data.List.Nodup
import Mathlib.Order.Nat
import Mathlib.Tactic.Common

set_option autoImplicit false

/-!
# Who reclaims a stack

The memory of a thread is in one place at a time: on the list, where a call of `pthread_join` may
wait for it, or in the hands of one call, which takes it from one of its instructions to the next
until it is freed. The proof gives every thread its place, and says what each place means for the
thread and for the program counters.

`finished` is stored by the thread itself, which has the call of `bsdthread_terminate` still before
it. Nothing keeps others from taking its stack in between.

## Main definitions

* `Place` — where the memory of a thread is.
* `Consistent` — the places agree with the process.

## Main results

* `reclaim` — stacks are reclaimed once, and the list has those that no call has in its hands.
* `not_reclaim` — runs that do not do what one would like: a stack is unmapped below its thread, one
  that is mapped is not on the list, and a second join unmaps it again.
-/

namespace Asteros.Libc.Pthread

open Function

/-! ## Places -/

/-- What a call has to do with a thread. -/
inductive Held where
  /-- It is making it. -/
  | made
  /-- It is starting it. -/
  | starting
  /-- It waits for it. -/
  | awaited
  /-- It took it off the list. -/
  | taken
  /-- It unmapped its stack. -/
  | unmapped
  deriving DecidableEq

/-- Where the memory of a thread is. -/
inductive Place where
  /-- The number has not been used. -/
  | unused
  /-- On the list, and no call has to do with it. -/
  | free
  /-- A call has to do with it. -/
  | held (u : Caller) (h : Held)
  /-- It was reclaimed. -/
  | gone
  deriving DecidableEq

/-- The places that are on the list. -/
def Place.listed : Place → Bool
  | .free | .held _ .starting | .held _ .awaited => true
  | .unused | .held _ .made | .held _ .taken | .held _ .unmapped | .gone => false

/-- The threads that a call has to do with. -/
def Pc.refs : Pc → List (ℕ × Held)
  | .idle => []
  | .unmapping dead _ => dead.map fun t => (t, .taken)
  | .freeing t dead _ => (t, .unmapped) :: dead.map fun t => (t, .taken)
  | .mapped t _ | .abandoning t | .filled t => [(t, .made)]
  | .registered t | .failed t => [(t, .starting)]
  | .joining t | .joined t => [(t, .awaited)]

/-- The thread is off its stack, and is somebody's to reclaim, or could not be started. -/
def Thread.Dead (th : Thread) : Prop :=
  th.phase = .unborn ∨ th.phase = .terminated ∧ th.owned = true

/-- The memory of a thread at a place. -/
def Thread.Memory (th : Thread) : Place → Prop
  | .unused => th = .unused
  | .free => th.phase ≠ .unborn ∧ th.mapped = true ∧ th.unmaps = 0 ∧ th.frees = 0
  | .held _ .made | .held _ .starting =>
    th.phase = .unborn ∧ th.mapped = true ∧ th.unmaps = 0 ∧ th.frees = 0
  | .held _ .awaited =>
    th.phase ≠ .unborn ∧ th.owned = true ∧ th.detached = false ∧ th.mapped = true ∧ th.unmaps = 0 ∧
      th.frees = 0
  | .held _ .taken => th.Dead ∧ th.mapped = true ∧ th.unmaps = 0 ∧ th.frees = 0
  | .held _ .unmapped => th.Dead ∧ th.mapped = false ∧ th.unmaps = 1 ∧ th.frees = 0
  | .gone => th.Dead ∧ th.mapped = false ∧ th.unmaps = 1 ∧ th.frees ≤ 1

/-- A thread at a place. -/
structure Thread.At (th : Thread) (pl : Place) : Prop where
  /-- `finished` is stored when the thread has come that far. -/
  finished_iff : th.finished = true ↔ th.phase = .stored ∨ th.phase = .terminated
  /-- A detached thread is to be reclaimed by nobody else. -/
  owned : th.detached = true → th.owned = true
  /-- The memory. -/
  memory : th.Memory pl

/-- The places agree with the process. -/
structure Consistent (s : Process) (place : ℕ → Place) : Prop where
  /-- The program counters. -/
  refs : ∀ u t h, (t, h) ∈ (s.pc u).refs ↔ place t = .held u h
  /-- A call has to do with a thread in one way. -/
  nodup : ∀ u, (s.pc u).refs.Nodup
  /-- The list. -/
  list : ∀ t, t ∈ s.list ↔ (place t).listed = true
  /-- A thread is on it once. -/
  list_nodup : s.list.Nodup
  /-- The threads. -/
  at_place : ∀ t, (s.threads t).At (place t)
  /-- Numbers that are not given away. -/
  fresh : ∀ t, s.next ≤ t → place t = .unused
  /-- The loop of `pthread_join` ends when the thread is off its stack. -/
  joined : ∀ u t, s.pc u = .joined t → (s.threads t).phase = .terminated

variable {s s' : Process} {place : ℕ → Place} {u : Caller} {t : ℕ} {p : Pc} {th : Thread}
  {l : List ℕ} {n : ℕ}

/-- **One call has to do with one thread**: what its step leaves is consistent again, if nobody else
has to do with the thread, and the rest stays. -/
lemma Consistent.call (h : Consistent s place) (u : Caller) (t : ℕ) (pl : Place)
    (hothers : ∀ v hd, v ≠ u → place t ≠ .held v hd ∧ pl ≠ .held v hd)
    (hrefs : ∀ hd, (t, hd) ∈ p.refs ↔ pl = .held u hd)
    (hrest : ∀ x hd, x ≠ t → ((x, hd) ∈ p.refs ↔ (x, hd) ∈ (s.pc u).refs)) (hnodup : p.refs.Nodup)
    (hlist : t ∈ l ↔ pl.listed = true) (hlrest : ∀ x, x ≠ t → (x ∈ l ↔ x ∈ s.list))
    (hlnodup : l.Nodup) (hat : th.At pl) (hlt : t < n) (hle : s.next ≤ n)
    (hjoined : ∀ x, p ≠ .joined x) :
    Consistent ⟨update s.threads t th, n, l, update s.pc u p⟩ (update place t pl) := by
  constructor
  · intro v x hd
    dsimp only
    rcases eq_or_ne v u with rfl | hv
    · rw [update_self]
      rcases eq_or_ne x t with rfl | hx
      · rw [update_self, hrefs]
      · rw [update_of_ne hx, hrest x hd hx, h.refs]
    · rw [update_of_ne hv, h.refs]
      rcases eq_or_ne x t with rfl | hx
      · rw [update_self]
        exact iff_of_false (hothers v hd hv).1 (hothers v hd hv).2
      · rw [update_of_ne hx]
  · intro v
    dsimp only
    rcases eq_or_ne v u with rfl | hv
    · rwa [update_self]
    · rw [update_of_ne hv]
      exact h.nodup v
  · intro x
    rcases eq_or_ne x t with rfl | hx
    · rw [update_self]
      exact hlist
    · rw [update_of_ne hx, ← h.list]
      exact hlrest x hx
  · exact hlnodup
  · intro x
    dsimp only
    rcases eq_or_ne x t with rfl | hx
    · rwa [update_self, update_self]
    · rw [update_of_ne hx, update_of_ne hx]
      exact h.at_place x
  · intro x hx
    have hxt : x ≠ t := (hlt.trans_le hx).ne'
    rw [update_of_ne hxt]
    exact h.fresh x (hle.trans hx)
  · intro v x hv
    dsimp only at hv ⊢
    rcases eq_or_ne v u with rfl | hne
    · rw [update_self] at hv
      exact absurd hv (hjoined x)
    · rw [update_of_ne hne] at hv
      have hx : x ≠ t := by
        rintro rfl
        have hmem : (x, Held.awaited) ∈ (s.pc v).refs := by
          rw [hv]
          exact List.mem_cons_self
        exact (hothers v _ hne).1 ((h.refs v x _).mp hmem)
      rw [update_of_ne hx]
      exact h.joined v x hv

/-- A step of a call that leaves the threads as they are. -/
lemma Consistent.callOnly (h : Consistent s place) (u : Caller) (t : ℕ) (pl : Place)
    (hothers : ∀ v hd, v ≠ u → place t ≠ .held v hd ∧ pl ≠ .held v hd)
    (hrefs : ∀ hd, (t, hd) ∈ p.refs ↔ pl = .held u hd)
    (hrest : ∀ x hd, x ≠ t → ((x, hd) ∈ p.refs ↔ (x, hd) ∈ (s.pc u).refs)) (hnodup : p.refs.Nodup)
    (hlist : t ∈ l ↔ pl.listed = true) (hlrest : ∀ x, x ≠ t → (x ∈ l ↔ x ∈ s.list))
    (hlnodup : l.Nodup) (hat : (s.threads t).At pl) (hlt : t < s.next)
    (hjoined : ∀ x, p ≠ .joined x) :
    Consistent ⟨s.threads, s.next, l, update s.pc u p⟩ (update place t pl) := by
  have hcall := h.call u t pl hothers hrefs hrest hnodup hlist hlrest hlnodup hat hlt
    (Nat.le_refl _) hjoined
  rwa [update_eq_self] at hcall

/-- A step of a thread itself that leaves its memory in its place. -/
lemma Consistent.setThread (h : Consistent s place) (hat : th.At (place t))
    (hfin : (s.threads t).phase = .terminated → th.phase = .terminated) :
    Consistent (s.setThread t th) place := by
  refine ⟨h.refs, h.nodup, h.list, h.list_nodup, fun x => ?_, h.fresh, fun v x hv => ?_⟩
  · rw [Process.setThread]
    dsimp only
    rcases eq_or_ne x t with rfl | hx
    · rwa [update_self]
    · rw [update_of_ne hx]
      exact h.at_place x
  · have hx := h.joined v x hv
    rw [Process.setThread]
    dsimp only
    rcases eq_or_ne x t with rfl | hne
    · rw [update_self]
      exact hfin hx
    · rwa [update_of_ne hne]

/-- A step of a call that has to do with the same threads. -/
lemma Consistent.setPc (h : Consistent s place) (hrefs : p.refs = (s.pc u).refs)
    (hjoined : ∀ t, p = .joined t → (s.threads t).phase = .terminated) :
    Consistent (s.setPc u p) place := by
  have hall : ∀ v, ((s.setPc u p).pc v).refs = (s.pc v).refs := by
    intro v
    rw [Process.setPc]
    dsimp only
    rcases eq_or_ne v u with rfl | hv
    · rw [update_self, hrefs]
    · rw [update_of_ne hv]
  refine ⟨fun v => ?_, fun v => ?_, h.list, h.list_nodup, h.at_place, h.fresh, fun v t hv => ?_⟩
  · rw [hall]
    exact h.refs v
  · rw [hall]
    exact h.nodup v
  · rw [Process.setPc] at hv
    dsimp only at hv
    rcases eq_or_ne v u with rfl | hne
    · rw [update_self] at hv
      exact hjoined t hv
    · rw [update_of_ne hne] at hv
      exact h.joined v t hv

/-- A thread that a call has to do with has its place with the call. -/
lemma Consistent.held (h : Consistent s place) {p : Pc} (hp : s.pc u = p) (t : ℕ) (hd : Held)
    (hmem : (t, hd) ∈ p.refs) : place t = .held u hd :=
  (h.refs u t hd).mp (hp ▸ hmem)

/-- Such a thread has a number that was given away. -/
lemma Consistent.lt_next (h : Consistent s place) {hd : Held} (ht : place t = .held u hd) :
    t < s.next := by
  by_contra hge
  rw [h.fresh t (Nat.not_lt.mp hge)] at ht
  cases ht

/-- What is kept follows. -/
theorem Consistent.kept (h : Consistent s place) : Kept s := by
  have hat := h.at_place
  have hmem : ∀ t, (s.threads t).unmaps ≤ 1 ∧ (s.threads t).frees ≤ 1 ∧
      (0 < (s.threads t).unmaps ∨ 0 < (s.threads t).frees →
        (s.threads t).phase = .terminated ∨ (s.threads t).phase = .unborn) := by
    intro t
    have hm := (hat t).memory
    unfold Thread.Memory at hm
    split at hm
    · rw [hm]
      simp [Thread.unused]
    all_goals
      unfold Thread.Dead at *
      grind
  refine ⟨fun t => (hmem t).1, fun t => (hmem t).2.1, fun t => (hmem t).2.2, fun t => ?_⟩
  have hhands : ∀ u, t ∈ (s.pc u).inHands ↔ place t = .held u .made ∨ place t = .held u .taken := by
    intro u
    rw [← h.refs, ← h.refs]
    cases s.pc u <;> simp [Pc.inHands, Pc.refs]
  have hm := (hat t).memory
  rw [h.list]
  simp only [hhands]
  unfold Thread.Memory at hm
  unfold Place.listed
  split at hm <;> simp_all [Thread.unused]

/-! ## Steps -/

/-- At first nothing has a place. -/
lemma consistent_start : Consistent start fun _ => .unused := by
  refine ⟨fun u t h => ?_, fun u => List.nodup_nil, fun t => ?_, List.nodup_nil, fun t => ?_,
    fun t _ => rfl, fun u t ht => ?_⟩
  · simp [start, Pc.refs]
  · simp [start, Place.listed]
  · exact ⟨by simp [start, Thread.unused], by simp [start, Thread.unused], rfl⟩
  · cases ht

/-- Different threads are different references. -/
lemma nodup_taken {dead : List ℕ} (h : dead.Nodup) : (dead.map fun t => (t, Held.taken)).Nodup :=
  h.map fun _ _ hab => (Prod.mk.inj hab).1

/-- **`reap_finished_detached`** takes the threads that are detached and have finished into its
hands: no call of `pthread_join` waits for one, and none is being started. -/
lemma Consistent.create (h : Consistent s place) {detached : Bool} (hidle : s.pc u = .idle)
    (hoff : ∀ t ∈ s.list, s.isDead t = true → (s.threads t).phase ≠ .stored) :
    Consistent { s.setPc u (.unmapping (s.list.filter s.isDead).reverse (.create detached)) with
        list := s.list.filter fun t => !s.isDead t }
      fun t => if t ∈ s.list ∧ s.isDead t = true then .held u .taken else place t := by
  have hfree : ∀ t, t ∈ s.list ∧ s.isDead t = true → place t = .free := by
    rintro t ⟨hin, hdead⟩
    rw [Process.isDead, Bool.and_eq_true] at hdead
    have hat := h.at_place t
    have hm := hat.memory
    have hfin := hat.finished_iff.mp hdead.2
    rw [h.list] at hin
    unfold Place.listed at hin
    split at hin
    · assumption
    all_goals simp_all [Thread.Memory]
  have hnone : ∀ t hd, place t ≠ .held u hd := fun t hd ht => by
    have hmem := (h.refs u t hd).mpr ht
    rw [hidle] at hmem
    cases hmem
  constructor
  · intro v t hd
    rw [Process.setPc]
    dsimp only
    rcases eq_or_ne v u with rfl | hv
    · rw [update_self]
      simp only [Pc.refs, List.mem_map, List.mem_reverse, List.mem_filter, Prod.mk.injEq]
      split
      · next hdead => simp [hdead, eq_comm]
      · next hdead =>
        refine iff_of_false (fun hmem => ?_) (hnone t hd)
        obtain ⟨x, hx, rfl, -⟩ := hmem
        exact hdead hx
    · rw [update_of_ne hv, h.refs]
      split
      · next hdead => simp [hfree t hdead, Ne.symm hv]
      · rfl
  · intro v
    rw [Process.setPc]
    dsimp only
    rcases eq_or_ne v u with rfl | hv
    · rw [update_self]
      exact nodup_taken (List.nodup_reverse.mpr (h.list_nodup.filter _))
    · rw [update_of_ne hv]
      exact h.nodup v
  · intro t
    dsimp only
    rw [List.mem_filter]
    split
    · next hdead => simp [hdead, Place.listed]
    · next hdead =>
      rw [← h.list]
      refine ⟨fun hin => hin.1, fun hin => ⟨hin, ?_⟩⟩
      simpa [hin] using hdead
  · exact h.list_nodup.filter _
  · intro t
    have hat := h.at_place t
    dsimp only
    split
    · next hdead =>
      have hm := hat.memory
      rw [hfree t hdead] at hm
      have hphase := hoff t hdead.1 hdead.2
      rw [Process.isDead, Bool.and_eq_true] at hdead
      exact ⟨hat.finished_iff, hat.owned, .inr ⟨(hat.finished_iff.mp hdead.2.2).resolve_left hphase,
        hat.owned hdead.2.1⟩, hm.2⟩
    · exact hat
  · intro t ht
    rw [if_neg]
    · exact h.fresh t ht
    · rintro ⟨hin, -⟩
      rw [h.list, h.fresh t ht] at hin
      cases hin
  · intro v t hv
    rw [Process.setPc] at hv
    dsimp only at hv
    rcases eq_or_ne v u with rfl | hne
    · rw [update_self] at hv
      cases hv
    · rw [update_of_ne hne] at hv
      exact h.joined v t hv

/-- A thread that was started and is nobody's to reclaim is on the list, and no call has to do with
it. -/
lemma Consistent.free_of_not_owned (h : Consistent s place) (hphase : (s.threads t).phase ≠ .unborn)
    (howned : (s.threads t).owned = false) : place t = .free := by
  have hm := (h.at_place t).memory
  unfold Thread.Memory at hm
  split at hm <;> simp_all [Thread.Dead, Thread.unused]

/-- A thread whose place changes is nobody else's. -/
lemma not_held_of_held {pl : Place} {hd : Held} (hpl : pl = .held u hd) :
    ∀ v hd', v ≠ u → pl ≠ .held v hd' := by
  rintro v hd' hv rfl
  exact hv (Place.held.inj hpl).1

/-- **Every proper step keeps the memory of a thread in one place.** -/
theorem Consistent.step {a : Act} (h : Consistent s place) (hproper : Proper s a)
    (hs : step s a = some s') : ∃ place', Consistent s' place' := by
  cases a with
  | create u detached =>
    rw [Pthread.step, Option.ite_none_right_eq_some, Process.canCall, Bool.and_eq_true,
      beq_iff_eq] at hs
    obtain rfl := Option.some.inj hs.2
    exact ⟨_, h.create hs.1.2 hproper⟩
  | mmap u =>
    simp only [Pthread.step] at hs
    split at hs <;> cases hs
    next detached hpc =>
    have hunused := h.fresh s.next (Nat.le_refl _)
    refine ⟨_, h.call u s.next (.held u .made) (fun v hd hv => ?_) (fun hd => ?_)
      (fun x hd hx => ?_) ?_ ((h.list s.next).trans ?_) (fun x _ => Iff.rfl) h.list_nodup ?_
      (Nat.lt_succ_self _) (Nat.le_succ _) nofun⟩
    · exact ⟨by simp [hunused], not_held_of_held rfl v hd hv⟩
    · simp [Pc.refs, eq_comm]
    · simp [Pc.refs, hpc, hx]
    · simp [Pc.refs]
    · simp [hunused, Place.listed]
    · exact ⟨by simp [Thread.unused], by simp [Thread.unused], by simp [Thread.Memory, Thread.unused]⟩
  | mmapFails u =>
    simp only [Pthread.step] at hs
    split at hs <;> cases hs
    next detached hpc => exact ⟨place, h.setPc (by simp [hpc, Pc.refs]) nofun⟩
  | calloc u =>
    simp only [Pthread.step] at hs
    split at hs <;> cases hs
    next t detached hpc =>
    have ht := h.held hpc t .made List.mem_cons_self
    have hat := h.at_place t
    have hm := hat.memory
    rw [ht] at hm
    refine ⟨_, h.call u t (.held u .made) (fun v hd hv => ?_) (fun hd => ?_)
      (fun x hd hx => ?_) ?_ ((h.list t).trans ?_) (fun x _ => Iff.rfl) h.list_nodup ?_
      (h.lt_next ht) (Nat.le_refl _) nofun⟩
    · exact ⟨not_held_of_held ht v hd hv, not_held_of_held rfl v hd hv⟩
    · simp [Pc.refs, eq_comm]
    · simp [Pc.refs, hpc, hx]
    · simp [Pc.refs]
    · rw [ht]
    · exact ⟨hat.finished_iff, id, hm⟩
  | callocFails u =>
    simp only [Pthread.step] at hs
    split at hs <;> cases hs
    next t detached hpc => exact ⟨place, h.setPc (by simp [hpc, Pc.refs]) nofun⟩
  | register u =>
    simp only [Pthread.step] at hs
    split at hs <;> cases hs
    next t hpc =>
    have ht := h.held hpc t .made List.mem_cons_self
    have hat := h.at_place t
    have hm := hat.memory
    rw [ht] at hm
    have hnot : t ∉ s.list := by
      rw [h.list, ht]
      exact Bool.false_ne_true
    refine ⟨_, h.callOnly u t (.held u .starting) (fun v hd hv => ?_) (fun hd => ?_)
      (fun x hd hx => ?_) ?_ ?_ (fun x hx => ?_) (List.nodup_cons.mpr ⟨hnot, h.list_nodup⟩)
      ⟨hat.finished_iff, hat.owned, hm⟩ (h.lt_next ht) nofun⟩
    · exact ⟨not_held_of_held ht v hd hv, not_held_of_held rfl v hd hv⟩
    · simp [Pc.refs, eq_comm]
    · simp [Pc.refs, hpc, hx]
    · simp [Pc.refs]
    · simp [Place.listed]
    · exact List.mem_cons.trans (or_iff_right hx)
  | bsdthreadCreate u =>
    simp only [Pthread.step] at hs
    split at hs <;> cases hs
    next t hpc =>
    have ht := h.held hpc t .starting List.mem_cons_self
    have hat := h.at_place t
    have hm := hat.memory
    rw [ht] at hm
    refine ⟨_, h.call u t .free (fun v hd hv => ?_) (fun hd => ?_)
      (fun x hd hx => ?_) ?_ ((h.list t).trans ?_) (fun x _ => Iff.rfl) h.list_nodup ?_
      (h.lt_next ht) (Nat.le_refl _) nofun⟩
    · exact ⟨not_held_of_held ht v hd hv, nofun⟩
    · simp [Pc.refs]
    · simp [Pc.refs, hpc, hx]
    · simp [Pc.refs]
    · rw [ht]
      rfl
    · have hfin := hat.finished_iff
      rw [hm.1] at hfin
      exact ⟨by simpa using hfin, hat.owned, nofun, hm.2⟩
  | bsdthreadCreateFails u =>
    simp only [Pthread.step] at hs
    split at hs <;> cases hs
    next t hpc => exact ⟨place, h.setPc (by simp [hpc, Pc.refs]) nofun⟩
  | join u t =>
    rw [Pthread.step, Option.ite_none_right_eq_some, Process.canCall, Bool.and_eq_true,
      beq_iff_eq] at hs
    obtain ⟨⟨⟨-, hidle⟩, hphase⟩, hs⟩ := hs
    split at hs <;> cases hs
    · exact ⟨place, h⟩
    · next hne =>
      have ht := h.free_of_not_owned hphase (hproper.resolve_left hne)
      have hat := h.at_place t
      have hm := hat.memory
      rw [ht] at hm
      refine ⟨_, h.call u t (.held u .awaited) (fun v hd hv => ?_) (fun hd => ?_)
        (fun x hd hx => ?_) ?_ ((h.list t).trans ?_) (fun x _ => Iff.rfl) h.list_nodup ?_ ?_
        (Nat.le_refl _) nofun⟩
      · exact ⟨by simp [ht], not_held_of_held rfl v hd hv⟩
      · simp [Pc.refs, eq_comm]
      · simp [Pc.refs, hidle, hx]
      · simp [Pc.refs]
      · rw [ht]
        rfl
      · have hdetached : (s.threads t).detached = false := by
          by_contra hd
          have howned := hat.owned (by simpa using hd)
          rw [hproper.resolve_left hne] at howned
          cases howned
        exact ⟨hat.finished_iff, fun _ => rfl, hm.1, rfl, hdetached, hm.2⟩
      · by_contra hge
        have hunused := h.fresh t (Nat.not_lt.mp hge)
        rw [ht] at hunused
        cases hunused
  | see u =>
    simp only [Pthread.step] at hs
    split at hs
    · next t hpc =>
      split at hs <;> cases hs
      next hfin =>
      refine ⟨place, h.setPc (by simp [hpc, Pc.refs]) ?_⟩
      rintro x ⟨⟩
      have hlisted : t ∈ s.list := by
        rw [h.list, h.held hpc t .awaited List.mem_cons_self]
        rfl
      exact ((h.at_place t).finished_iff.mp hfin).resolve_left (hproper t hlisted hpc)
    · cases hs
  | unregister u =>
    have hkey : ∀ t hd, (s.pc u).refs = [(t, hd)] → (place t).listed = true → (s.threads t).Dead →
        (s.threads t).mapped = true ∧ (s.threads t).unmaps = 0 ∧ (s.threads t).frees = 0 →
        ∃ place', Consistent { s.setPc u (.unmapping [t] .done) with list := s.list.erase t }
          place' := by
      intro t hd hrefs hlisted hdead hmem
      have ht : place t = .held u hd := (h.refs u t hd).mp (hrefs ▸ List.mem_cons_self)
      have hat := h.at_place t
      refine ⟨_, h.callOnly u t (.held u .taken) (fun v hd hv => ?_) (fun hd => ?_)
        (fun x hd' hx => ?_) ?_ ?_ (fun x hx => List.mem_erase_of_ne hx) (h.list_nodup.erase t)
        ⟨hat.finished_iff, hat.owned, hdead, hmem⟩ (h.lt_next ht) nofun⟩
      · exact ⟨not_held_of_held ht v hd hv, not_held_of_held rfl v hd hv⟩
      · simp [Pc.refs, eq_comm]
      · rw [hrefs]
        simp [Pc.refs, hx]
      · simp [Pc.refs]
      · exact iff_of_false (fun hin => (List.Nodup.mem_erase_iff h.list_nodup).mp hin |>.1 rfl) nofun
    simp only [Pthread.step] at hs
    split at hs <;> cases hs
    · next t hpc =>
      have ht := h.held hpc t .starting List.mem_cons_self
      have hm := (h.at_place t).memory
      rw [ht] at hm
      exact hkey t .starting (by rw [hpc, Pc.refs]) (by rw [ht]; rfl) (.inl hm.1) hm.2
    · next t hpc =>
      have ht := h.held hpc t .awaited List.mem_cons_self
      have hm := (h.at_place t).memory
      rw [ht] at hm
      obtain ⟨-, howned, -, hmem⟩ := hm
      exact hkey t .awaited (by rw [hpc, Pc.refs]) (by rw [ht]; rfl)
        (.inr ⟨h.joined u t hpc, howned⟩) hmem
  | munmap u =>
    simp only [Pthread.step] at hs
    split at hs <;> cases hs
    · next t dead cont hpc =>
      have ht := h.held hpc t .taken List.mem_cons_self
      have hat := h.at_place t
      have hm := hat.memory
      rw [ht] at hm
      have hnodup := h.nodup u
      rw [hpc, Pc.refs, List.map_cons, List.nodup_cons] at hnodup
      have hnot : t ∉ dead := fun hin => hnodup.1 (List.mem_map_of_mem hin)
      refine ⟨_, h.call u t (.held u .unmapped) (fun v hd hv => ?_) (fun hd => ?_)
        (fun x hd hx => ?_) ?_ ((h.list t).trans ?_) (fun x _ => Iff.rfl) h.list_nodup ?_
        (h.lt_next ht) (Nat.le_refl _) nofun⟩
      · exact ⟨not_held_of_held ht v hd hv, not_held_of_held rfl v hd hv⟩
      · simp [Pc.refs, hnot, eq_comm]
      · simp [Pc.refs, hpc, hx]
      · exact List.nodup_cons.mpr ⟨by simp, hnodup.2⟩
      · rw [ht]
        rfl
      · exact ⟨hat.finished_iff, hat.owned, hm.1, rfl, by simp [hm.2.2.1], hm.2.2.2⟩
    · next t hpc =>
      have ht := h.held hpc t .made List.mem_cons_self
      have hat := h.at_place t
      have hm := hat.memory
      rw [ht] at hm
      refine ⟨_, h.call u t .gone (fun v hd hv => ?_) (fun hd => ?_)
        (fun x hd hx => ?_) ?_ ((h.list t).trans ?_) (fun x _ => Iff.rfl) h.list_nodup ?_
        (h.lt_next ht) (Nat.le_refl _) nofun⟩
      · exact ⟨not_held_of_held ht v hd hv, nofun⟩
      · simp [Pc.refs]
      · simp [Pc.refs, hpc, hx]
      · simp [Pc.refs]
      · rw [ht]
        rfl
      · exact ⟨hat.finished_iff, hat.owned, .inl hm.1, rfl, by simp [hm.2.2.1], by simp [hm.2.2.2]⟩
  | free u =>
    simp only [Pthread.step] at hs
    split at hs <;> cases hs
    next t dead cont hpc =>
    have ht := h.held hpc t .unmapped List.mem_cons_self
    have hat := h.at_place t
    have hm := hat.memory
    rw [ht] at hm
    have hnodup := h.nodup u
    rw [hpc, Pc.refs, List.nodup_cons] at hnodup
    have hnot : t ∉ dead := fun hin => by
      have htaken := h.held hpc t .taken
        (List.mem_cons_of_mem _ (List.mem_map_of_mem hin))
      rw [ht] at htaken
      cases htaken
    refine ⟨_, h.call u t .gone (fun v hd hv => ?_) (fun hd => ?_)
      (fun x hd hx => ?_) hnodup.2 ((h.list t).trans ?_) (fun x _ => Iff.rfl) h.list_nodup ?_
      (h.lt_next ht) (Nat.le_refl _) nofun⟩
    · exact ⟨not_held_of_held ht v hd hv, nofun⟩
    · simp [Pc.refs, hnot]
    · simp [Pc.refs, hpc, hx]
    · rw [ht]
      rfl
    · exact ⟨hat.finished_iff, hat.owned, hm.1, hm.2.1, hm.2.2.1, by simp [hm.2.2.2]⟩
  | «return» u =>
    simp only [Pthread.step] at hs
    split at hs <;> cases hs
    next hpc => exact ⟨place, h.setPc (by simp [hpc, Pc.refs]) nofun⟩
  | detach u t =>
    rw [Pthread.step, Option.ite_none_right_eq_some] at hs
    obtain ⟨⟨-, hphase⟩, hs⟩ := hs
    cases hs
    have ht := h.free_of_not_owned hphase hproper
    have hat := h.at_place t
    have hm := hat.memory
    rw [ht] at hm
    refine ⟨place, h.setThread ⟨hat.finished_iff, fun _ => rfl, ?_⟩ id⟩
    rw [ht]
    exact hm
  | finish t =>
    rw [Pthread.step, Option.ite_none_right_eq_some] at hs
    obtain ⟨⟨hphase, -⟩, hs⟩ := hs
    cases hs
    have hat := h.at_place t
    have hm := hat.memory
    refine ⟨place, h.setThread ⟨by simp, hat.owned, ?_⟩ fun hover => by simp [hphase] at hover⟩
    have hfin := hat.finished_iff
    unfold Thread.Memory at hm ⊢
    split at hm <;> simp_all [Thread.Dead, Thread.unused]
  | terminate t =>
    rw [Pthread.step, Option.ite_none_right_eq_some] at hs
    obtain ⟨hphase, hs⟩ := hs
    cases hs
    have hat := h.at_place t
    have hm := hat.memory
    have hfin := hat.finished_iff.mpr (.inl hphase)
    refine ⟨place, h.setThread ⟨by simp [hfin], hat.owned, ?_⟩ fun _ => rfl⟩
    unfold Thread.Memory at hm ⊢
    split at hm <;> simp_all [Thread.Dead, Thread.unused]

/-! ## Runs -/

/-- **Stacks are reclaimed once**: for every interleaving of the steps of any number of threads that
join or detach each thread once, and do so with none between its store of `finished` and its last
instruction, the stack of a thread is unmapped and its struct freed at most once each, and only after
that instruction, or if it could not be started; and the list has exactly the threads with a mapped
stack that no call has in its hands.

**Proof sketch.** The memory of a thread is in one place. A call of `pthread_join` waits for a
thread that is not detached, so that no reaping takes it, and no other call waits for it; the
reaping takes the threads that are detached and have finished off the list in one critical section,
and what is off the list is found by nobody else. -/
theorem reclaim {acts : List Act} (hrun : Transition.exec step start acts = some s)
    (hacts : Transition.Along step Proper start acts) : Kept s := by
  obtain ⟨place, h⟩ := Transition.invariant_along (P := fun s => ∃ place, Consistent s place)
    (fun _ _ _ hp ho hs => hp.elim fun _ h => h.step ho hs) ⟨_, consistent_start⟩ hacts hrun
  exact h.kept

/-- What a thread does that creates another one. -/
def creation (u : Caller) (detached : Bool) : List Act :=
  [.create u detached, .mmap u, .calloc u, .register u, .bsdthreadCreate u]

/-- A thread is joined by one that was created detached, which is reaped later. -/
theorem reclaim_joinedAndReaped :
    ∃ s, Transition.exec step start (creation none false ++ creation none true ++
        [Act.join (some 1) 0, .finish 0, .terminate 0, .see (some 1), .unregister (some 1),
          .munmap (some 1), .free (some 1), .return (some 1), .finish 1, .terminate 1,
          .create none false, .munmap none]) = some s ∧
      (s.threads 1).unmaps = 1 ∧ Kept s := by
  have hrun : ((Transition.exec step start (creation none false ++ creation none true ++
      [Act.join (some 1) 0, .finish 0, .terminate 0, .see (some 1), .unregister (some 1),
        .munmap (some 1), .free (some 1), .return (some 1), .finish 1, .terminate 1,
        .create none false, .munmap none])).map fun s => (s.threads 1).unmaps) = some 1 := by
    decide +kernel
  obtain ⟨s, hs, hone⟩ := Option.map_eq_some_iff.mp hrun
  exact ⟨s, hs, hone, reclaim hs (by decide +kernel)⟩

/-- **What one would like, and is not so**: a thread is on its stack still when that is unmapped by
the thread that joins it; a stack is mapped that is not on the list, in the hands of the call that
made it; and a second join unmaps a stack again. -/
theorem not_reclaim :
    ((Transition.exec step start (creation none false ++
        [Act.finish 0, .join none 0, .see none, .unregister none, .munmap none])).map fun s =>
          ((s.threads 0).phase, (s.threads 0).mapped)) = some (.stored, false) ∧
      ((Transition.exec step start [.create none false, .mmap none]).map fun s =>
          (s.list, (s.threads 0).mapped)) = some ([], true) ∧
      ((Transition.exec step start (creation none false ++ creation none false ++
        [Act.join none 0, .join (some 1) 0, .finish 0, .see none, .see (some 1), .unregister none,
          .munmap none, .free none, .unregister (some 1), .munmap (some 1)])).map fun s =>
          (s.threads 0).unmaps) = some 2 := by
  decide +kernel

end Asteros.Libc.Pthread
