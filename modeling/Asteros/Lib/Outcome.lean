import Mathlib.Tactic.Common

set_option autoImplicit false

/-!
# How computations with a state end

A computation of `EStateM` ends with a result or with an error, and with a state in either case.
The rules of `Ends` describe the end of a program by the ends of its parts.

## Main definitions

* `Ends` — the end of a computation is as described.

## Main results

* `Ends.bind`, `Ends.mono` — the rules for composition and consequence.
-/

namespace Outcome

variable {ε σ α β : Type}

/-- The computation ends as described: with a result and a state, or with an error and a state. -/
def Ends (x : EStateM ε σ α) (s : σ) (Q : α → σ → Prop) (E : ε → σ → Prop) : Prop :=
  match x s with
  | .ok a s' => Q a s'
  | .error e s' => E e s'

variable {x : EStateM ε σ α} {f : α → EStateM ε σ β} {s : σ} {E E' : ε → σ → Prop}

/-- What a computation that ends with a result is described by. -/
lemma Ends.ok {Q : α → σ → Prop} (h : Ends x s Q E) {a : α} {s' : σ} (hx : x s = .ok a s') :
    Q a s' := by
  unfold Ends at h
  rw [hx] at h
  exact h

/-- What a computation that ends with an error is described by. -/
lemma Ends.error {Q : α → σ → Prop} (h : Ends x s Q E) {e : ε} {s' : σ}
    (hx : x s = .error e s') : E e s' := by
  unfold Ends at h
  rw [hx] at h
  exact h

/-- One computation after another. -/
lemma Ends.bind {Q : β → σ → Prop} (h : Ends x s (fun a s' => Ends (f a) s' Q E) E) :
    Ends (x >>= f) s Q E := by
  have hbind : (x >>= f) s = EStateM.bind x f s := rfl
  unfold Ends at h ⊢
  rw [hbind, EStateM.bind]
  cases hx : x s with
  | ok a s' =>
    rw [hx] at h
    exact h
  | error e s' =>
    rw [hx] at h
    exact h

/-- A result. -/
lemma Ends.pure {Q : α → σ → Prop} {a : α} (h : Q a s) : Ends (Pure.pure a) s Q E := h

/-- An error. -/
lemma Ends.throw {Q : α → σ → Prop} {e : ε} (h : E e s) :
    Ends (MonadExceptOf.throw e : EStateM ε σ α) s Q E := h

/-- A look at the state. -/
lemma Ends.get {Q : σ → σ → Prop} (h : Q s s) : Ends (MonadState.get : EStateM ε σ σ) s Q E := h

/-- A change of the state. -/
lemma Ends.modify {Q : PUnit → σ → Prop} {g : σ → σ} (h : Q ⟨⟩ (g s)) :
    Ends (modify g : EStateM ε σ PUnit) s Q E := h

/-- Weaker descriptions. -/
lemma Ends.mono {Q Q' : α → σ → Prop} (h : Ends x s Q E) (hQ : ∀ a s', Q a s' → Q' a s')
    (hE : ∀ e s', E e s' → E' e s') : Ends x s Q' E' := by
  unfold Ends at h ⊢
  cases hx : x s with
  | ok a s' =>
    rw [hx] at h
    exact hQ a s' h
  | error e s' =>
    rw [hx] at h
    exact hE e s' h

/-- The state at the end. -/
def stateAfter (x : EStateM ε σ α) (s : σ) : σ :=
  match x s with
  | .ok _ s' => s'
  | .error _ s' => s'

/-- After a result. -/
lemma stateAfter_ok {a : α} {s' : σ} (h : x s = .ok a s') : stateAfter x s = s' := by
  rw [stateAfter, h]

/-- After an error. -/
lemma stateAfter_error {e : ε} {s' : σ} (h : x s = .error e s') : stateAfter x s = s' := by
  rw [stateAfter, h]

/-- The computation ends with a result that passes a test. -/
def succeeds (x : EStateM ε σ α) (s : σ) (p : α → σ → Bool) : Bool :=
  match x s with
  | .ok a s' => p a s'
  | .error _ _ => false

/-- What that means. -/
lemma succeeds_iff {p : α → σ → Bool} :
    succeeds x s p = true ↔ ∃ a s', x s = .ok a s' ∧ p a s' = true := by
  unfold succeeds
  cases x s with
  | ok a s' => simp
  | error e s' => simp

end Outcome
