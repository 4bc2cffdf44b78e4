import Mathlib.Data.List.Nodup
import Mathlib.Data.Nat.Init
import Mathlib.Tactic.Common

set_option autoImplicit false

/-!
# Chains of ancestors

A forest on the natural numbers is given by the parent of each of its nodes, and is numbered so that
a parent has a smaller number than its children. The chain of a node is the node itself, its parent,
the parent of that, and so on up to a root: what a loop over the parents visits.

## Main definitions

* `chain` — the chain of a node.
* `Earlier` — parents have smaller numbers.

## Main results

* `induction` — what goes from parents to children holds of every node.
* `chain_eq` — a chain is its node and the chain of the parent.
* `chain_congr` — a chain depends on the parents of its members only.
-/

namespace Ancestry

/-- The first `n` members of the chain of a node. -/
def chainTo (parent : ℕ → Option ℕ) : ℕ → ℕ → List ℕ
  | 0, _ => []
  | n + 1, c => c :: (parent c).elim [] (chainTo parent n)

/-- The chain of a node. It has no more members than there are numbers up to the node. -/
def chain (parent : ℕ → Option ℕ) (c : ℕ) : List ℕ := chainTo parent (c + 1) c

/-- Parents have smaller numbers than their children. -/
def Earlier (parent : ℕ → Option ℕ) : Prop := ∀ c p, parent c = some p → p < c

variable {parent parent' : ℕ → Option ℕ} {c d e p : ℕ}

/-- **Induction along the chains**: what holds of a node if it holds of its parent holds of every
node. -/
theorem induction (h : Earlier parent) {P : ℕ → Prop}
    (hstep : ∀ c, (∀ p, parent c = some p → P p) → P c) (c : ℕ) : P c := by
  induction c using Nat.strong_induction_on with
  | _ c ih => exact hstep c fun p hp => ih p (h c p hp)

/-- More members than there are smaller numbers are never asked for. -/
lemma chainTo_eq_chainTo (h : Earlier parent) {n m : ℕ} (hn : c < n) (hm : c < m) :
    chainTo parent n c = chainTo parent m c := by
  induction n generalizing m c with
  | zero => omega
  | succ n ih =>
    cases m with
    | zero => omega
    | succ m =>
      rw [chainTo, chainTo]
      cases hp : parent c with
      | none => rfl
      | some p =>
        have hlt : p < c := h c p hp
        simp only [Option.elim_some, ih (by omega : p < n) (by omega : p < m)]

/-- **A chain is its node and the chain of the parent.** -/
theorem chain_eq (h : Earlier parent) (c : ℕ) :
    chain parent c = c :: (parent c).elim [] (chain parent) := by
  rw [chain, chainTo]
  cases hp : parent c with
  | none => rfl
  | some p =>
    have hlt : p < c := h c p hp
    simp only [Option.elim_some, chain, chainTo_eq_chainTo h hlt (Nat.lt_succ_self p)]

/-- The chain of a node that has a parent. -/
lemma chain_of_parent (h : Earlier parent) (hp : parent c = some p) :
    chain parent c = c :: chain parent p := by
  rw [chain_eq h, hp, Option.elim_some]

/-- The chain of a node that has none. -/
lemma chain_of_root (h : Earlier parent) (hp : parent c = none) : chain parent c = [c] := by
  rw [chain_eq h, hp, Option.elim_none]

/-- A node is in its chain. -/
lemma self_mem_chain (c : ℕ) : c ∈ chain parent c := by
  rw [chain, chainTo]
  exact List.mem_cons_self

/-- What else is in it is in the chain of the parent. -/
lemma mem_chain_iff (h : Earlier parent) :
    d ∈ chain parent c ↔ d = c ∨ ∃ p, parent c = some p ∧ d ∈ chain parent p := by
  rw [chain_eq h, List.mem_cons]
  cases parent c <;> simp

/-- The members of a chain have no larger numbers. -/
lemma le_of_mem_chain (h : Earlier parent) (hd : d ∈ chain parent c) : d ≤ c := by
  induction c using induction h with
  | hstep c ih =>
    rcases (mem_chain_iff h).mp hd with rfl | ⟨p, hp, hdp⟩
    · exact Nat.le_refl d
    · exact Nat.le_trans (ih p hp hdp) (Nat.le_of_lt (h c p hp))

/-- A member of the chain other than the node itself is the parent of one. -/
lemma exists_child_of_mem_chain (h : Earlier parent) (hd : d ∈ chain parent c) (hne : d ≠ c) :
    ∃ e ∈ chain parent c, parent e = some d := by
  induction c using induction h with
  | hstep c ih =>
    rcases (mem_chain_iff h).mp hd with hdc | ⟨p, hp, hdp⟩
    · exact absurd hdc hne
    · rcases eq_or_ne d p with rfl | hdne
      · exact ⟨c, self_mem_chain c, hp⟩
      · obtain ⟨e, he, hed⟩ := ih p hp hdp hdne
        exact ⟨e, (mem_chain_iff h).mpr (.inr ⟨p, hp, he⟩), hed⟩

/-- The chain of a member is a part of the chain. -/
lemma mem_chain_trans (h : Earlier parent) (hd : d ∈ chain parent c) (he : e ∈ chain parent d) :
    e ∈ chain parent c := by
  induction c using induction h with
  | hstep c ih =>
    rcases (mem_chain_iff h).mp hd with rfl | ⟨p, hp, hdp⟩
    · exact he
    · exact (mem_chain_iff h).mpr (.inr ⟨p, hp, ih p hp hdp⟩)

/-- A node comes once in its chain. -/
lemma nodup_chain (h : Earlier parent) (c : ℕ) : (chain parent c).Nodup := by
  induction c using induction h with
  | hstep c ih =>
    cases hp : parent c with
    | none =>
      rw [chain_of_root h hp]
      exact List.nodup_singleton c
    | some p =>
      rw [chain_of_parent h hp]
      refine List.nodup_cons.mpr ⟨fun hmem => ?_, ih p hp⟩
      exact absurd (h c p hp) (Nat.not_lt.mpr (le_of_mem_chain h hmem))

/-- **A chain depends on the parents of its members only.** -/
theorem chain_congr (h : Earlier parent) (h' : Earlier parent')
    (heq : ∀ d ∈ chain parent c, parent' d = parent d) : chain parent' c = chain parent c := by
  induction c using induction h with
  | hstep c ih =>
    have hc : parent' c = parent c := heq c (self_mem_chain c)
    cases hp : parent c with
    | none => rw [chain_of_root h hp, chain_of_root h' (hc.trans hp)]
    | some p =>
      have hrest := ih p hp fun d hd => heq d ((mem_chain_iff h).mpr (.inr ⟨p, hp, hd⟩))
      rw [chain_of_parent h hp, chain_of_parent h' (hc.trans hp), hrest]

end Ancestry
