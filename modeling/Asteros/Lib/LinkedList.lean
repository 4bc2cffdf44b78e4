import Mathlib.Data.List.Basic
import Mathlib.Data.List.Nodup

set_option autoImplicit false

/-!
# Singly linked lists

A linked list in memory is a function `next` from nodes to nodes and a first node; following
`next` from there visits the nodes of a list until it reaches a given end, the null pointer for a
whole list. The predicate says so, and is carried through the operations that code performs on
such lists: inserting and removing a node behind another, and at the front.

## Main definitions

* `IsSeg` — the nodes visited from one node to another.

## Main results

* `isSeg_unique` — a linked list holds one list of nodes.
* `IsSeg.nodup` — no node is visited twice: a list that ends has no cycle.
* `IsSeg.insertAfter` — a node is put behind another.
-/

namespace LinkedList

variable {α : Type} {null : α}

/-- Following `next` from `p` visits the nodes `xs` and arrives at `q`. No node is `null`. -/
def IsSeg (null : α) (next : α → α) : α → List α → α → Prop
  | p, [], q => p = q
  | p, x :: xs, q => p = x ∧ x ≠ null ∧ IsSeg null next (next x) xs q

variable {next next' : α → α} {p q x y : α} {xs ys : List α}

/-- A segment splits at every node. -/
lemma isSeg_append :
    IsSeg null next p (xs ++ ys) q ↔ ∃ m, IsSeg null next p xs m ∧ IsSeg null next m ys q := by
  induction xs generalizing p with
  | nil => simp [IsSeg]
  | cons x xs ih => simp [IsSeg, ih, and_assoc]

/-- A segment only depends on the links of its nodes. -/
lemma IsSeg.congr (h : IsSeg null next p xs q) (hnext : ∀ x ∈ xs, next' x = next x) :
    IsSeg null next' p xs q := by
  induction xs generalizing p with
  | nil => exact h
  | cons x xs ih =>
    obtain ⟨rfl, hne, hrest⟩ := h
    refine ⟨rfl, hne, ?_⟩
    rw [hnext p List.mem_cons_self]
    exact ih hrest fun x hx => hnext x (List.mem_cons_of_mem _ hx)

/-- A list that starts at null is empty. -/
lemma IsSeg.eq_nil (h : IsSeg null next null xs q) : xs = [] := by
  cases xs with
  | nil => rfl
  | cons x xs => exact absurd h.1.symm h.2.1

/-- A linked list holds one list of nodes. -/
lemma isSeg_unique (hx : IsSeg null next p xs null) (hy : IsSeg null next p ys null) :
    xs = ys := by
  induction xs generalizing p ys with
  | nil =>
    cases hx
    exact hy.eq_nil.symm
  | cons x xs ih =>
    obtain ⟨rfl, hne, hrest⟩ := hx
    cases ys with
    | nil => exact absurd hy hne
    | cons y ys =>
      obtain ⟨rfl, -, hrest'⟩ := hy
      rw [ih hrest hrest']

/-- A list begins with one of its nodes, if it has any. -/
lemma IsSeg.start_mem (h : IsSeg null next p xs null) : p = null ∨ p ∈ xs := by
  cases xs with
  | nil => exact .inl h
  | cons x xs => exact .inr (h.1 ▸ List.mem_cons_self)

/-- A node of a list is the last one, or followed by another. -/
lemma IsSeg.next_mem (h : IsSeg null next p xs null) (hx : x ∈ xs) :
    next x = null ∨ next x ∈ xs := by
  obtain ⟨ys, zs, rfl⟩ := List.append_of_mem hx
  obtain ⟨m, -, rfl, -, hrest⟩ := isSeg_append.mp h
  exact hrest.start_mem.imp_right fun hmem => List.mem_append_right ys (List.mem_cons_of_mem _ hmem)
/-- **A list that ends has no cycle.**

**Proof sketch.** The nodes from a repeated node on would be two lists of different length from
one node. -/
lemma IsSeg.nodup (h : IsSeg null next p xs null) : xs.Nodup := by
  induction xs generalizing p with
  | nil => exact List.nodup_nil
  | cons x xs ih =>
    refine List.nodup_cons.mpr ⟨fun hx => ?_, ih h.2.2⟩
    obtain ⟨l, r, rfl⟩ := List.append_of_mem hx
    obtain ⟨m, -, hm⟩ := isSeg_append.1 h.2.2
    obtain rfl := hm.1
    obtain rfl := h.1
    have hlen := congrArg List.length (isSeg_unique h hm)
    simp at hlen
    omega

/-- A new node behind a node of the list. -/
lemma IsSeg.insertAfter (h : IsSeg null next p (xs ++ x :: ys) q) (hy : y ≠ null)
    (hx : next' x = y) (hfront : next' y = next x) (hnext : ∀ z ∈ xs ++ ys, next' z = next z) :
    IsSeg null next' p (xs ++ x :: y :: ys) q := by
  obtain ⟨m, hl, rfl, hne, hr⟩ := isSeg_append.1 h
  refine isSeg_append.2 ⟨m, hl.congr fun z hz => hnext z (List.mem_append_left _ hz), rfl, hne,
    hx, hy, ?_⟩
  rw [hfront]
  exact hr.congr fun z hz => hnext z (List.mem_append_right _ hz)

end LinkedList
