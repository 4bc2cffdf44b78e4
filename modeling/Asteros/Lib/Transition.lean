import Mathlib.Data.List.Induction

set_option autoImplicit false

/-!
# Runs of a partial step function

A system is given by `step : σ → α → Option σ`: in state `s` the action `a` is either not
possible, or leads to one next state. A schedule is a list of actions; interleavings of several
threads are schedules whose actions name their thread. This file has the rules by which a
property of one step becomes a property of runs: an invariant holds in every state a run reaches,
also when it is kept only by the steps that meet a condition, in the runs all of whose steps do.

## Main definitions

* `exec` — the state a schedule leads to.
* `Along` — every step of a run meets a condition on the state and the action.

## Main results

* `exec_append` — runs compose.
* `trace_invariant` — an invariant of the steps is one of the runs, also when it speaks of the
  actions taken so far.
* `invariant` — the special case that only speaks of the state.
* `invariant_along` — the same for runs whose steps meet a condition.
-/

namespace Transition

variable {σ α : Type} (step : σ → α → Option σ)

/-- The state that a schedule leads to, if each of its actions is possible in turn. -/
def exec : σ → List α → Option σ
  | s, [] => some s
  | s, a :: as =>
    match step s a with
    | none => none
    | some t => exec t as

/-- Every step of the run from `s` meets the condition `C`. -/
def Along (C : σ → α → Prop) : σ → List α → Prop
  | _, [] => True
  | s, a :: as => C s a ∧ ∀ t, step s a = some t → Along C t as

variable {step}

/-- Whether the steps of a run meet a condition can be found out by running it. -/
instance decidableAlong {C : σ → α → Prop} [∀ s a, Decidable (C s a)] :
    (s : σ) → (as : List α) → Decidable (Along step C s as)
  | _, [] => .isTrue trivial
  | s, a :: as =>
    match hs : step s a with
    | none => decidable_of_iff (C s a) (by simp [Along, hs])
    | some t =>
      have : Decidable (Along step C t as) := decidableAlong t as
      decidable_of_iff (C s a ∧ Along step C t as) (by simp [Along, hs])

/-- A run that is not empty begins with a step. -/
lemma exec_cons {s u : σ} {a : α} {as : List α} (h : exec step s (a :: as) = some u) :
    ∃ t, step s a = some t ∧ exec step t as = some u := by
  rw [exec] at h
  split at h
  · cases h
  · next t ht => exact ⟨t, ht, h⟩

/-- A run of two schedules is a run of the first and then one of the second. -/
lemma exec_append {s u : σ} {as bs : List α} :
    exec step s (as ++ bs) = some u ↔
      ∃ t, exec step s as = some t ∧ exec step t bs = some u := by
  induction as generalizing s with
  | nil => simp [exec]
  | cons a as ih =>
    constructor
    · intro h
      obtain ⟨t, ht, hrest⟩ := exec_cons h
      obtain ⟨v, hv, hu⟩ := ih.mp hrest
      exact ⟨v, by rw [exec, ht]; exact hv, hu⟩
    · rintro ⟨v, hv, hu⟩
      obtain ⟨t, ht, hrest⟩ := exec_cons hv
      rw [List.cons_append, exec, ht]
      exact ih.mpr ⟨v, hrest, hu⟩

/-- **Invariants of runs with their schedules**: what holds of the start and the empty schedule, and
is kept when a step is taken and its action appended, holds of every run. -/
theorem trace_invariant {P : List α → σ → Prop} {s u : σ} (hs : P [] s)
    (hstep : ∀ as a t v, P as t → step t a = some v → P (as ++ [a]) v) {as : List α}
    (h : exec step s as = some u) : P as u := by
  induction as using List.reverseRecOn generalizing u with
  | nil =>
    cases h
    exact hs
  | append_singleton as a ih =>
    obtain ⟨t, ht, hlast⟩ := exec_append.1 h
    obtain ⟨v, hv, hend⟩ := exec_cons hlast
    cases hend
    exact hstep as a t _ (ih ht) hv

/-- **Invariants of runs**: what holds at the start and is kept by every step holds at the end. -/
theorem invariant {P : σ → Prop} (hstep : ∀ s a t, P s → step s a = some t → P t) {s u : σ}
    {as : List α} (hs : P s) (h : exec step s as = some u) : P u :=
  trace_invariant (P := fun _ s => P s) hs (fun _ a t v => hstep t a v) h

/-- **Invariants of conditional runs**: what holds at the start and is kept by every step that
meets the condition holds at the end of a run whose steps all meet it. -/
theorem invariant_along {P : σ → Prop} {C : σ → α → Prop}
    (hstep : ∀ s a t, P s → C s a → step s a = some t → P t) {s u : σ} {as : List α} (hs : P s)
    (hC : Along step C s as) (h : exec step s as = some u) : P u := by
  induction as generalizing s with
  | nil =>
    cases h
    exact hs
  | cons a as ih =>
    obtain ⟨t, ht, hrest⟩ := exec_cons h
    exact ih (hstep s a t hs hC.1 ht) (hC.2 t ht) hrest

/-- Conditions that agree in the states that an invariant allows agree along runs. -/
lemma along_iff {P : σ → Prop} {C D : σ → α → Prop}
    (hstep : ∀ s a t, P s → step s a = some t → P t) (hiff : ∀ s a, P s → (C s a ↔ D s a)) {s : σ}
    (hs : P s) (as : List α) : Along step C s as ↔ Along step D s as := by
  induction as generalizing s with
  | nil => exact Iff.rfl
  | cons a as ih =>
    rw [Along, Along, hiff s a hs]
    refine and_congr_right fun _ => forall_congr' fun t => ?_
    exact forall_congr' fun ht => ih (hstep s a t hs ht)

/-- Conditions that agree wherever an invariant and a third condition hold agree along the runs
whose steps meet the third one. -/
lemma along_iff_of_along {P : σ → Prop} {C D E : σ → α → Prop}
    (hstep : ∀ s a t, P s → E s a → step s a = some t → P t)
    (hiff : ∀ s a, P s → E s a → (C s a ↔ D s a)) {s : σ} (hs : P s) {as : List α}
    (hE : Along step E s as) : Along step C s as ↔ Along step D s as := by
  induction as generalizing s with
  | nil => exact Iff.rfl
  | cons a as ih =>
    rw [Along, Along, hiff s a hs hE.1]
    refine and_congr_right fun _ => forall_congr' fun t => ?_
    exact forall_congr' fun ht => ih (hstep s a t hs hE.1 ht) (hE.2 t ht)

/-- The steps of a run meet two conditions. -/
lemma Along.and {C D : σ → α → Prop} {s : σ} {as : List α} (hC : Along step C s as)
    (hD : Along step D s as) : Along step (fun s a => C s a ∧ D s a) s as := by
  induction as generalizing s with
  | nil => trivial
  | cons a as ih => exact ⟨⟨hC.1, hD.1⟩, fun t ht => ih (hC.2 t ht) (hD.2 t ht)⟩

/-- Two conditions that agree on the steps that can be taken agree along the runs. -/
lemma along_congr {C D : σ → α → Prop}
    (hiff : ∀ s a t, step s a = some t → (C s a ↔ D s a)) {s u : σ} {as : List α}
    (h : exec step s as = some u) : Along step C s as ↔ Along step D s as := by
  induction as generalizing s with
  | nil => exact Iff.rfl
  | cons a as ih =>
    obtain ⟨t, ht, hrest⟩ := exec_cons h
    have hnext : (∀ v, step s a = some v → Along step C v as) ↔
        ∀ v, step s a = some v → Along step D v as := by
      refine forall₂_congr fun v hv => ih ?_
      obtain rfl := Option.some.inj (ht.symm.trans hv)
      exact hrest
    exact and_congr (hiff s a t ht) hnext

/-- What follows from a condition of the steps. -/
lemma Along.mono {C D : σ → α → Prop} (himp : ∀ s a, C s a → D s a) {s : σ} {as : List α}
    (hC : Along step C s as) : Along step D s as := by
  induction as generalizing s with
  | nil => trivial
  | cons a as ih => exact ⟨himp s a hC.1, fun t ht => ih (hC.2 t ht)⟩

/-- The last step of a run meets what all steps meet. -/
lemma Along.last {C : σ → α → Prop} {s t : σ} {as : List α} {a : α}
    (hC : Along step C s (as ++ [a])) (h : exec step s as = some t) : C t a := by
  induction as generalizing s with
  | nil =>
    cases h
    exact hC.1
  | cons b as ih =>
    obtain ⟨v, hv, hrest⟩ := exec_cons h
    exact ih (hC.2 v hv) hrest

/-- The steps of a part of a run are steps of the run. -/
lemma Along.of_append {C : σ → α → Prop} {s : σ} {as bs : List α}
    (h : Along step C s (as ++ bs)) : Along step C s as := by
  induction as generalizing s with
  | nil => trivial
  | cons a as ih => exact ⟨h.1, fun t ht => ih (h.2 t ht)⟩

/-- Every step of a run meets a condition, if wherever the run is split at a step that step
does. -/
lemma along_of_split {C : σ → α → Prop} {s u : σ} {as : List α} (h : exec step s as = some u)
    (hC : ∀ pre a post t v, as = pre ++ a :: post → exec step s pre = some t →
      step t a = some v → exec step v post = some u → C t a) : Along step C s as := by
  induction as generalizing s with
  | nil => trivial
  | cons a as ih =>
    obtain ⟨v, hv, hrest⟩ := exec_cons h
    refine ⟨hC [] a as s v rfl rfl hv hrest, fun t ht => ?_⟩
    obtain rfl : v = t := Option.some_inj.mp (hv.symm.trans ht)
    refine ih hrest fun pre b post t w hsplit hpre hb hpost =>
      hC (a :: pre) b post t w (by rw [hsplit, List.cons_append]) ?_ hb hpost
    rw [exec, hv]
    exact hpre

end Transition
