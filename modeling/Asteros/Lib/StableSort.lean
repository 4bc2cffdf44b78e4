import Mathlib.Data.List.DropRight

set_option autoImplicit false

/-!
# Stable sorting by insertion

Sorting by a test that says of two elements that the first is greater. Elements may be neither
greater nor less than each other without being the same; a stable sort keeps such elements in their
order. Insertion takes one element after the other and moves it from the right past those that are
greater. The test only needs to make sense for the elements that are sorted.

## Main definitions

* `TotalOn` — the test is that of a total preorder of some elements.
* `Sorts` — a list is the stable sort of another.
* `insertLast` — an element is moved past the greater ones at the end of a list.
* `insertionSort` — the elements are inserted one after the other.

## Main results

* `sorts_insertionSort` — insertion is a stable sort.
-/

namespace StableSort

variable {α : Type} (gt : α → α → Bool) (S : Set α)

/-- The test is that of a total preorder of the elements of a set. -/
structure TotalOn : Prop where
  /-- Two elements are not greater than each other. -/
  asymm : ∀ {a b}, a ∈ S → b ∈ S → gt a b = true → gt b a = false
  /-- Not being greater is transitive. -/
  trans : ∀ {a b c}, a ∈ S → b ∈ S → c ∈ S → gt a b = false → gt b c = false → gt a c = false

/-- Neither element is greater. -/
def same (a b : α) : Bool := !gt a b && !gt b a

/-- The second list is the stable sort of the first: the same elements, none of them before one that
it is greater than, and those that are the same to the test as an element of the set in their old
order. -/
structure Sorts (xs ys : List α) : Prop where
  /-- The same elements. -/
  perm : ys.Perm xs
  /-- In order. -/
  sorted : ys.Pairwise fun a b => gt a b = false
  /-- Elements that are the same to the test stay in their order. -/
  stable : ∀ a ∈ S, ys.filter (same gt a) = xs.filter (same gt a)

/-- The element behind the list is moved past the greater ones at its end. -/
def insertLast (l : List α) (a : α) : List α :=
  l.rdropWhile (gt · a) ++ a :: l.rtakeWhile (gt · a)

/-- The elements are inserted one after the other. -/
def insertionSort (l : List α) : List α := l.foldl (insertLast gt) []

variable {gt} {S} {l xs ys : List α} {a b : α}

/-! ## Inserting -/

/-- An element that is greater is passed. -/
lemma insertLast_concat_pos (h : gt b a = true) :
    insertLast gt (l ++ [b]) a = insertLast gt l a ++ [b] := by
  have hdrop : (l ++ [b]).rdropWhile (gt · a) = l.rdropWhile (gt · a) :=
    List.rdropWhile_concat_pos _ _ _ h
  have htake : (l ++ [b]).rtakeWhile (gt · a) = l.rtakeWhile (gt · a) ++ [b] :=
    List.rtakeWhile_concat_pos _ _ _ h
  rw [insertLast, hdrop, htake, insertLast, List.append_assoc, List.cons_append]

/-- And one that is not greater is not. -/
lemma insertLast_concat_neg (h : gt b a = false) :
    insertLast gt (l ++ [b]) a = l ++ [b, a] := by
  have hnot : ¬gt b a = true := by simp [h]
  have hdrop : (l ++ [b]).rdropWhile (gt · a) = l ++ [b] :=
    List.rdropWhile_concat_neg _ _ _ hnot
  have htake : (l ++ [b]).rtakeWhile (gt · a) = [] := List.rtakeWhile_concat_neg _ _ _ hnot
  rw [insertLast, hdrop, htake, List.append_assoc]
  rfl

/-- The first element stays where it is. -/
@[simp] lemma insertLast_nil (a : α) : insertLast gt [] a = [a] := by
  simp [insertLast]

/-- The parts that an element is inserted between. -/
lemma rdropWhile_append (gt : α → α → Bool) (l : List α) (a : α) :
    l.rdropWhile (gt · a) ++ l.rtakeWhile (gt · a) = l :=
  List.rdropWhile_append_rtakeWhile

/-- The elements are those of the list and the new one. -/
lemma insertLast_perm (l : List α) (a : α) : (insertLast gt l a).Perm (l ++ [a]) := by
  have hmiddle : (insertLast gt l a).Perm (a :: l) := by
    have h : (l.rdropWhile (gt · a) ++ a :: l.rtakeWhile (gt · a)).Perm
        (a :: (l.rdropWhile (gt · a) ++ l.rtakeWhile (gt · a))) := List.perm_middle
    rwa [rdropWhile_append gt] at h
  have hend : ([a] ++ l).Perm (l ++ [a]) := List.perm_append_comm
  exact hmiddle.trans hend

/-- There is one more. -/
@[simp] lemma length_insertLast (l : List α) (a : α) :
    (insertLast gt l a).length = l.length + 1 := by
  rw [(insertLast_perm l a).length_eq, List.length_append]
  rfl

/-- **Inserting keeps the order.** -/
lemma insertLast_sorted (h : TotalOn gt S) (hS : ∀ b ∈ l, b ∈ S) (ha : a ∈ S)
    (hl : l.Pairwise fun a b => gt a b = false) :
    (insertLast gt l a).Pairwise fun a b => gt a b = false := by
  have hdropS : ∀ b ∈ l.rdropWhile (gt · a), b ∈ S := fun b hb =>
    hS b ((List.rdropWhile_prefix _ l).subset hb)
  have htakeS : ∀ b ∈ l.rtakeWhile (gt · a), b ∈ S := fun b hb =>
    hS b ((List.rtakeWhile_suffix _ _).subset hb)
  have hparts := hl
  rw [← rdropWhile_append gt l a, List.pairwise_append] at hparts
  obtain ⟨hleft, hright, hbetween⟩ := hparts
  have hgreater : ∀ b ∈ l.rtakeWhile (gt · a), gt a b = false := by
    intro b hb
    have hba : gt b a = true := List.mem_rtakeWhile_imp (p := (gt · a)) hb
    exact h.asymm (htakeS b hb) ha hba
  have hless : ∀ b ∈ l.rdropWhile (gt · a), gt b a = false := by
    intro b hb
    have hne : l.rdropWhile (gt · a) ≠ [] := List.ne_nil_of_mem hb
    have hlast : gt ((l.rdropWhile (gt · a)).getLast hne) a = false := by
      simpa using List.rdropWhile_last_not (gt · a) l hne
    -- the last element that stays is not greater, and the others are not greater than it
    have hbS := hdropS b hb
    rw [← List.dropLast_append_getLast hne, List.mem_append, List.mem_singleton] at hb
    obtain hb | rfl := hb
    · rw [← List.dropLast_append_getLast hne, List.pairwise_append] at hleft
      exact h.trans hbS (hdropS _ (List.getLast_mem hne)) ha
        (hleft.2.2 b hb _ List.mem_cons_self) hlast
    · exact hlast
  rw [insertLast, List.pairwise_append, List.pairwise_cons]
  refine ⟨hleft, ⟨hgreater, hright⟩, fun b hb c hc => ?_⟩
  obtain rfl | hc := List.mem_cons.mp hc
  · exact hless b hb
  · exact hbetween b hb c hc

/-- **Inserting keeps elements that are the same to the test in their order**, as those that are
passed are greater. -/
lemma insertLast_filter (h : TotalOn gt S) (hS : ∀ b ∈ l, b ∈ S) (ha : a ∈ S) (hb : b ∈ S) :
    (insertLast gt l a).filter (same gt b) = (l ++ [a]).filter (same gt b) := by
  have hl := rdropWhile_append gt l a
  by_cases hsame : same gt b a = true
  · have hnone : (l.rtakeWhile (gt · a)).filter (same gt b) = [] := by
      rw [List.filter_eq_nil_iff]
      intro c hc hbc
      have hca : gt c a = true := List.mem_rtakeWhile_imp (p := (gt · a)) hc
      simp only [same, Bool.and_eq_true, Bool.not_eq_true'] at hsame hbc
      have hcS := hS c ((List.rtakeWhile_suffix _ _).subset hc)
      have hnot := h.trans hcS hb ha hbc.2 hsame.1
      rw [hca] at hnot
      cases hnot
    conv_rhs => rw [← hl]
    rw [insertLast, List.filter_append, List.filter_cons_of_pos hsame, hnone, List.filter_append,
      List.filter_append, hnone, List.append_nil, List.filter_cons_of_pos hsame, List.filter_nil]
  · conv_rhs => rw [← hl]
    rw [insertLast, List.filter_append, List.filter_cons_of_neg hsame, List.filter_append,
      List.filter_append, List.filter_cons_of_neg hsame, List.filter_nil, List.append_nil]

/-! ## Sorting -/

/-- One more element is inserted. -/
lemma insertionSort_concat (l : List α) (a : α) :
    insertionSort gt (l ++ [a]) = insertLast gt (insertionSort gt l) a := by
  rw [insertionSort, List.foldl_append]
  rfl

/-- A list sorted so far, with one more element. -/
lemma Sorts.insertLast (h : TotalOn gt S) (hS : ∀ b ∈ xs, b ∈ S) (ha : a ∈ S)
    (hs : Sorts gt S xs ys) : Sorts gt S (xs ++ [a]) (insertLast gt ys a) := by
  have hys : ∀ b ∈ ys, b ∈ S := fun b hb => hS b (hs.perm.subset hb)
  exact {
    perm := (insertLast_perm ys a).trans (hs.perm.append_right [a])
    sorted := insertLast_sorted h hys ha hs.sorted
    stable := fun b hb => by
      rw [insertLast_filter h hys ha hb, List.filter_append, hs.stable b hb, List.filter_append] }

/-- **Insertion is a stable sort.** -/
theorem sorts_insertionSort (h : TotalOn gt S) (hl : ∀ a ∈ l, a ∈ S) :
    Sorts gt S l (insertionSort gt l) := by
  induction l using List.reverseRecOn with
  | nil => exact ⟨List.Perm.refl _, List.Pairwise.nil, fun _ _ => rfl⟩
  | append_singleton l a ih =>
    have hinit : ∀ b ∈ l, b ∈ S := fun b hb => hl b (List.mem_append_left _ hb)
    rw [insertionSort_concat]
    exact (ih hinit).insertLast h hinit (hl a (by simp))

/-- There are as many elements. -/
@[simp] lemma length_insertionSort (l : List α) : (insertionSort gt l).length = l.length := by
  induction l using List.reverseRecOn with
  | nil => rfl
  | append_singleton l a ih =>
    rw [insertionSort_concat, length_insertLast, ih, List.length_append]
    rfl

end StableSort
