import Asteros.Lib.StableSort

set_option autoImplicit false

/-!
# Sorting an array

`CFArraySortValues` sorts a range of an array by insertion. The element that is inserted is held
outside the array while those that are greater are shifted; a place of the array that is not there
is not read or written, as there is no result then.

## Main definitions

* `cfArraySortValues` — the function.

## Main results

* `cfArraySortValues_eq` — the range is sorted by insertion.
* `cfArraySortValues_sorts` — that is a stable sort, and what is outside the range stays.
-/

namespace Asteros.CoreFoundation

open StableSort

variable {α γ : Type}

/-- `a->values[i] = x`. -/
def storeAt (values : List α) (i : ℕ) (x : α) : Option (List α) :=
  if i < values.length then some (values.set i x) else none

/-- The inner loop, for an element `key` and a test for what is greater, and the store behind it;
there are `n` places from `location` to `j`. -/
def shiftGreater (greater : α → Bool) (key : α) (location : ℕ) : ℕ → List α → Option (List α)
  | 0, values => storeAt values location key
  | n + 1, values =>
    values[location + n]?.bind fun x =>
      if greater x then
        (storeAt values (location + n + 1) x).bind (shiftGreater greater key location n)
      else storeAt values (location + n + 1) key

/-- The outer loop, from `i` on and for so many elements. -/
def sortLoop (greater : α → α → Bool) (location : ℕ) : ℕ → ℕ → List α → Option (List α)
  | 0, _, values => some values
  | n + 1, i, values =>
    values[i]?.bind fun key =>
      (shiftGreater (greater · key) key location (i - location) values).bind
        (sortLoop greater location n (i + 1))

/-- The comparator says that the first element is greater. -/
def greaterThan (comparator : α → α → γ → Ordering) (context : γ) (a b : α) : Bool :=
  comparator a b context == .gt

/-- `CFArraySortValues`. The three results of a comparator are those of an `Ordering`. -/
def cfArraySortValues (values : List α) (location length : ℕ)
    (comparator : α → α → γ → Ordering) (context : γ) : Option (List α) :=
  sortLoop (greaterThan comparator context) location (length - 1) (location + 1) values

variable {pre post : List α}

/-- A store into the place between two lists. -/
lemma storeAt_append {i : ℕ} (hi : i = pre.length) (x y : α) :
    storeAt (pre ++ x :: post) i y = some (pre ++ y :: post) := by
  subst hi
  rw [storeAt, if_pos (by simp), List.set_append_right _ _ (le_refl _), Nat.sub_self,
    List.set_cons_zero]

/-- **The inner loop inserts the element.** The place behind the list holds anything.

**Proof sketch.** Induction on the list from its end: a greater element moves to the place behind
it, and then its own place is the one that holds anything. -/
lemma shiftGreater_append (greater : α → α → Bool) (pre mid post : List α) (x key : α) :
    shiftGreater (greater · key) key pre.length mid.length (pre ++ mid ++ x :: post) =
      some (pre ++ insertLast greater mid key ++ post) := by
  induction mid using List.reverseRecOn generalizing x post with
  | nil => simp [shiftGreater, storeAt_append]
  | append_singleton mid y ih =>
    have hlen : (mid ++ [y]).length = mid.length + 1 := by simp
    have hread : (pre ++ (mid ++ [y]) ++ x :: post)[pre.length + mid.length]? = some y := by
      rw [← List.append_assoc, List.append_assoc (pre ++ mid), ← List.length_append,
        List.getElem?_append_right (le_refl _), Nat.sub_self]
      rfl
    have hstore : ∀ z, storeAt (pre ++ (mid ++ [y]) ++ x :: post) (pre.length + mid.length + 1) z =
        some (pre ++ mid ++ y :: z :: post) := by
      intro z
      rw [storeAt_append (by simp [Nat.add_assoc])]
      simp
    rw [hlen, shiftGreater, hread, Option.bind_some, hstore, hstore]
    by_cases hgt : greater y key = true
    · rw [if_pos hgt, Option.bind_some, ih, insertLast_concat_pos hgt]
      simp
    · rw [if_neg hgt, insertLast_concat_neg (Bool.not_eq_true _ ▸ hgt)]
      simp

/-- **The outer loop** inserts one element after the other into those that are sorted. -/
lemma sortLoop_append (greater : α → α → Bool) (pre done rest post : List α) :
    sortLoop greater pre.length rest.length (pre.length + done.length)
        (pre ++ insertionSort greater done ++ rest ++ post) =
      some (pre ++ insertionSort greater (done ++ rest) ++ post) := by
  induction rest generalizing done with
  | nil => simp [sortLoop]
  | cons key rest ih =>
    have hread : (pre ++ insertionSort greater done ++ key :: rest ++ post)[pre.length +
        done.length]? = some key := by
      rw [List.append_assoc, List.getElem?_append_right (by simp)]
      simp
    have hshift := shiftGreater_append greater pre (insertionSort greater done)
      (rest ++ post) key key
    rw [length_insertionSort] at hshift
    have hnext := ih (done ++ [key])
    rw [insertionSort_concat, List.length_append, List.length_singleton, ← Nat.add_assoc,
      List.append_assoc done, List.singleton_append] at hnext
    rw [List.length_cons, sortLoop, hread, Option.bind_some, Nat.add_sub_cancel_left,
      List.append_assoc, List.cons_append, hshift, Option.bind_some, ← List.append_assoc]
    exact hnext

/-- **`CFArraySortValues` sorts its range by insertion.** -/
theorem cfArraySortValues_eq (comparator : α → α → γ → Ordering) (context : γ)
    (pre mid post : List α) :
    cfArraySortValues (pre ++ mid ++ post) pre.length mid.length comparator context =
      some (pre ++ insertionSort (greaterThan comparator context) mid ++ post) := by
  unfold cfArraySortValues
  cases mid with
  | nil => simp [sortLoop, insertionSort]
  | cons x mid =>
    have hloop := sortLoop_append (greaterThan comparator context) pre [x] mid post
    simp only [insertionSort, List.foldl_cons, List.foldl_nil, insertLast_nil, List.append_assoc,
      List.singleton_append, List.length_singleton] at hloop ⊢
    exact hloop

/-- A comparator that is a total preorder gives a test that is one. -/
lemma totalOn_greaterThan (comparator : α → α → γ → Ordering) (context : γ)
    [Std.TransCmp (comparator · · context)] :
    TotalOn (greaterThan comparator context) Set.univ where
  asymm := by
    intro a b _ _ h
    have hgt : comparator a b context = .gt := by simpa [greaterThan] using h
    have hlt := @Std.OrientedCmp.lt_of_gt _ (comparator · · context) _ _ _ hgt
    simp [greaterThan, hlt]
  trans := by
    intro a b c _ _ _ hab hbc
    have hle : ∀ x y, greaterThan comparator context x y = false ↔
        (comparator x y context).isLE = true := by
      intro x y
      cases h : comparator x y context <;> simp [greaterThan, h]
    rw [hle] at hab hbc ⊢
    exact @Std.TransCmp.isLE_trans _ (comparator · · context) _ _ _ _ hab hbc

/-- Two elements are the same to the test exactly if the comparator says that they are equal. -/
lemma same_greaterThan (comparator : α → α → γ → Ordering) (context : γ)
    [Std.TransCmp (comparator · · context)] (a b : α) :
    same (greaterThan comparator context) a b = (comparator a b context == .eq) := by
  have hswap : comparator a b context = (comparator b a context).swap :=
    @Std.OrientedCmp.eq_swap _ (comparator · · context) _ _ _
  unfold same greaterThan
  rw [hswap]
  cases comparator b a context <;> rfl

/-- **`CFArraySortValues` is a stable in-place sort of its range.** For every comparator that is a
total preorder in its context and every range inside the array, the elements of the range are
afterwards a permutation of what they were, none of them comes before one that it is greater than,
and those that are equal to any one element are in their old order; the array is as long as it was,
and what is outside the range stays. -/
theorem cfArraySortValues_sorts (comparator : α → α → γ → Ordering) (context : γ)
    [Std.TransCmp (comparator · · context)] (values : List α) (location length : ℕ)
    (hrange : location + length ≤ values.length) :
    ∃ sorted : List α,
      cfArraySortValues values location length comparator context =
        some (values.take location ++ sorted ++ values.drop (location + length)) ∧
      sorted.Perm ((values.drop location).take length) ∧
      (sorted.Pairwise fun a b => comparator a b context ≠ .gt) ∧
      ∀ a, (sorted.filter fun b => comparator a b context == .eq) =
        ((values.drop location).take length).filter fun b => comparator a b context == .eq := by
  let mid := (values.drop location).take length
  have hsplit : values = values.take location ++ mid ++ values.drop (location + length) := by
    rw [List.append_assoc, ← List.drop_drop, List.take_append_drop, List.take_append_drop]
  have hpre : (values.take location).length = location := by
    rw [List.length_take]
    omega
  have hmid : mid.length = length := by
    rw [List.length_take, List.length_drop]
    omega
  have heq := cfArraySortValues_eq comparator context (values.take location) mid
    (values.drop (location + length))
  rw [← hsplit, hpre, hmid] at heq
  have hsorts := sorts_insertionSort (totalOn_greaterThan comparator context)
    (l := mid) fun _ _ => trivial
  refine ⟨_, heq, hsorts.perm, hsorts.sorted.imp ?_, ?_⟩
  · intro a b hab hgt
    simp [greaterThan, hgt] at hab
  · intro a
    have hstable := hsorts.stable a trivial
    simp only [funext (same_greaterThan comparator context a)] at hstable
    exact hstable

/-- A comparator that reads its context: it compares the quotients by it. -/
def compareDivided (a b context : ℕ) : Ordering := compare (a / context) (b / context)

/-- In the middle of an array `31` and `35` are equal to a comparator that looks at the tens. -/
theorem cfArraySortValues_sorts_tens :
    ∃ sorted : List ℕ,
      cfArraySortValues [90, 35, 31, 12, 7] 1 3 compareDivided 10 =
        some ([90] ++ sorted ++ [7]) ∧
      sorted.Perm [35, 31, 12] ∧
      (sorted.Pairwise fun a b => compareDivided a b 10 ≠ .gt) ∧
      ∀ a, (sorted.filter fun b => compareDivided a b 10 == .eq) =
        [35, 31, 12].filter fun b => compareDivided a b 10 == .eq :=
  haveI : Std.TransCmp (compareDivided · · 10) := {
    eq_swap := fun {a b} => @Std.OrientedCmp.eq_swap ℕ compare _ (a / 10) (b / 10)
    isLE_trans := fun {a b c} =>
      @Std.TransCmp.isLE_trans ℕ compare _ (a / 10) (b / 10) (c / 10) }
  cfArraySortValues_sorts compareDivided 10 [90, 35, 31, 12, 7] 1 3 (by decide)

end Asteros.CoreFoundation
