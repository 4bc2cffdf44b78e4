import Mathlib.Data.Set.Card

set_option autoImplicit false

/-!
# Lists with keys

Lists of keys with values, searched from the front with a test that need not be equality. If the test
is an equivalence and no two keys pass it, such a list is a finite map.

## Main definitions

* `find`, `replace`, `erase` — searching, and changing what is found.
* `Distinct` — no two keys pass the test.
* `Lawful` — the test is an equivalence.
* `domain` — the keys of a map, up to the test.

## Main results

* `find_replace`, `find_append`, `find_erase` — what is found after a change.
* `ncard_domain` — the number of keys.
* `covers` — a list that is covered by one as long without overlap covers it.
-/

namespace KeyedList

variable {κ ν : Type} (eq : κ → κ → Bool)

/-- The value of the first key that passes the test. -/
def find (l : List (κ × ν)) (k : κ) : Option ν := (l.find? fun e => eq e.1 k).map Prod.snd

/-- The value of the first key that passes the test is another one. -/
def replace (k : κ) (v : ν) : List (κ × ν) → List (κ × ν)
  | [] => []
  | e :: l => if eq e.1 k then (e.1, v) :: l else e :: replace k v l

/-- The first key that passes the test is taken away. -/
def erase (k : κ) : List (κ × ν) → List (κ × ν)
  | [] => []
  | e :: l => if eq e.1 k then l else e :: erase k l

/-- No two keys pass the test. -/
def Distinct (l : List (κ × ν)) : Prop := l.Pairwise fun a b => eq a.1 b.1 = false

/-- The test is an equivalence. -/
structure Lawful : Prop where
  refl : ∀ k, eq k k = true
  symm : ∀ {k k'}, eq k k' = true → eq k' k = true
  trans : ∀ {k k' k''}, eq k k' = true → eq k' k'' = true → eq k k'' = true

variable {eq} {l : List (κ × ν)} {k k' : κ} {v : ν}

section Laws

variable (h : Lawful eq)

include h in
/-- The test does not depend on the order. -/
lemma Lawful.comm (k k' : κ) : eq k k' = eq k' k :=
  Bool.eq_iff_iff.mpr ⟨fun hk => h.symm hk, fun hk => h.symm hk⟩

include h in
/-- Keys that pass the test pass it with the same keys. -/
lemma Lawful.congr (hk : eq k k' = true) (k'' : κ) : eq k'' k = eq k'' k' :=
  Bool.eq_iff_iff.mpr ⟨fun hk' => h.trans hk' hk, fun hk' => h.trans hk' (h.symm hk)⟩

include h in
/-- So they find the same. -/
lemma find_congr (hk : eq k k' = true) (l : List (κ × ν)) : find eq l k = find eq l k' := by
  unfold find
  congr 2
  funext e
  exact h.congr hk e.1

end Laws

/-- Searching a list with an entry more in front. -/
lemma find_cons (e : κ × ν) (l : List (κ × ν)) (k : κ) :
    find eq (e :: l) k = if eq e.1 k then some e.2 else find eq l k := by
  unfold find
  rw [List.find?_cons]
  cases eq e.1 k with
  | true => rfl
  | false => rfl

/-- Nothing is found if no key passes the test. -/
lemma find_eq_none_iff : find eq l k = none ↔ ∀ e ∈ l, eq e.1 k = false := by
  rw [find, Option.map_eq_none_iff, List.find?_eq_none]
  exact forall₂_congr fun e _ => Bool.not_eq_true _ ▸ Iff.rfl

/-- **Searching a longer list.** -/
lemma find_append (l l' : List (κ × ν)) (k : κ) :
    find eq (l ++ l') k = (find eq l k).or (find eq l' k) := by
  induction l with
  | nil => rfl
  | cons e l ih =>
    rw [List.cons_append, find_cons, find_cons, ih]
    split
    · rfl
    · rfl

/-- **Searching after a replacement.** -/
lemma find_replace (h : Lawful eq) (k k' : κ) (v : ν) (l : List (κ × ν)) :
    find eq (replace eq k v l) k' =
      if eq k k' ∧ (find eq l k).isSome then some v else find eq l k' := by
  induction l with
  | nil => simp [replace, find]
  | cons e l ih =>
    rw [replace, find_cons e l k]
    by_cases hk : eq e.1 k = true
    · rw [if_pos hk, if_pos hk, find_cons, find_cons]
      have hsame : eq e.1 k' = eq k k' := by
        rw [h.comm e.1 k', h.congr hk k', h.comm k' k]
      rw [hsame]
      by_cases hk' : eq k k' = true
      · rw [if_pos hk', if_pos ⟨hk', rfl⟩]
      · rw [if_neg hk', if_neg hk', if_neg fun hboth => hk' hboth.1]
    · rw [if_neg hk, if_neg hk, find_cons, find_cons, ih]
      by_cases hk' : eq e.1 k' = true
      · have hne : ¬eq k k' = true := fun hkk' => hk (h.trans hk' (h.symm hkk'))
        rw [if_pos hk', if_pos hk', if_neg fun hboth => hne hboth.1]
      · rw [if_neg hk', if_neg hk']

/-- **Searching after an entry has been taken away**, if there was only one. -/
lemma find_erase (h : Lawful eq) (hl : Distinct eq l) (k k' : κ) :
    find eq (erase eq k l) k' = if eq k k' then none else find eq l k' := by
  induction l with
  | nil => simp [erase, find]
  | cons e l ih =>
    obtain ⟨hnew, hl⟩ := List.pairwise_cons.mp hl
    rw [erase, find_cons]
    by_cases hk : eq e.1 k = true
    · have hsame : eq e.1 k' = eq k k' := by
        rw [h.comm e.1 k', h.congr hk k', h.comm k' k]
      rw [if_pos hk, hsame]
      by_cases hk' : eq k k' = true
      · rw [if_pos hk', find_eq_none_iff]
        intro e' he'
        have hne := hnew e' he'
        rwa [h.comm, h.congr (h.trans hk hk') e'.1] at hne
      · rw [if_neg hk', if_neg hk']
    · rw [if_neg hk, find_cons, ih hl]
      by_cases hk' : eq e.1 k' = true
      · have hne : ¬eq k k' = true := fun hkk' => hk (h.trans hk' (h.symm hkk'))
        rw [if_pos hk', if_pos hk', if_neg hne]
      · rw [if_neg hk', if_neg hk']

/-- The values are the one that is found and those of the entries that are left without it. -/
lemma perm_erase (hk : find eq l k = some v) :
    (l.map Prod.snd).Perm (v :: (erase eq k l).map Prod.snd) := by
  induction l with
  | nil => cases hk
  | cons e l ih =>
    rw [find_cons] at hk
    rw [erase]
    split at hk
    · rename_i he
      rw [if_pos he, ← Option.some_inj.mp hk]
      exact List.Perm.refl _
    · rename_i he
      rw [if_neg he]
      exact ((ih hk).cons e.2).trans (List.Perm.swap v e.2 _)

/-- The values after a replacement are the new one and those of the entries that are left without
it. -/
lemma perm_replace {v' : ν} (hk : find eq l k = some v') (v : ν) :
    ((replace eq k v l).map Prod.snd).Perm (v :: (erase eq k l).map Prod.snd) := by
  induction l with
  | nil => cases hk
  | cons e l ih =>
    rw [find_cons] at hk
    rw [erase, replace]
    split at hk
    · rename_i he
      rw [if_pos he, if_pos he]
      exact List.Perm.refl _
    · rename_i he
      rw [if_neg he, if_neg he]
      exact ((ih hk).cons e.2).trans (List.Perm.swap v e.2 _)

/-- Nothing is taken away if nothing is found. -/
lemma erase_of_find_none (hk : find eq l k = none) : erase eq k l = l := by
  induction l with
  | nil => rfl
  | cons e l ih =>
    rw [find_cons] at hk
    split_ifs at hk with hek
    rw [erase, if_neg hek, ih hk]

/-- What is taken away is at the first index that passes the test. -/
lemma erase_eq_eraseIdx {i : ℕ} (hi : (l.findIdx? fun e => eq e.1 k) = some i) :
    erase eq k l = l.eraseIdx i := by
  induction l generalizing i with
  | nil => cases hi
  | cons e l ih =>
    rw [List.findIdx?_cons] at hi
    rw [erase]
    by_cases hk : eq e.1 k = true
    · rw [if_pos hk] at hi ⊢
      obtain rfl := Option.some.inj hi
      rfl
    · rw [if_neg hk] at hi ⊢
      obtain ⟨j, hj, rfl⟩ := Option.map_eq_some_iff.mp hi
      rw [List.eraseIdx_cons_succ, ih hj]

/-- What is found is in the list. -/
lemma mem_of_find (hv : find eq l k = some v) : ∃ k', (k', v) ∈ l ∧ eq k' k = true := by
  obtain ⟨e, he, rfl⟩ := Option.map_eq_some_iff.mp hv
  refine ⟨e.1, List.mem_of_find?_eq_some he, ?_⟩
  have htest := List.find?_some he
  exact htest

/-- **What is found** in a list of distinct keys is what it has. -/
lemma find_eq_some_iff (h : Lawful eq) (hl : Distinct eq l) :
    find eq l k = some v ↔ ∃ k', (k', v) ∈ l ∧ eq k' k = true := by
  refine ⟨mem_of_find, ?_⟩
  rintro ⟨k', hmem, hk⟩
  induction l with
  | nil => cases hmem
  | cons e l ih =>
    obtain ⟨hnew, hl⟩ := List.pairwise_cons.mp hl
    rw [find_cons]
    obtain rfl | hmem := List.mem_cons.mp hmem
    · rw [if_pos hk]
    · have hne : ¬eq e.1 k = true := by
        intro he
        have hapart := hnew _ hmem
        rw [h.trans he (h.symm hk)] at hapart
        cases hapart
      rw [if_neg hne]
      exact ih hl hmem

/-- The order of distinct keys does not matter. -/
lemma Distinct.perm {l' : List (κ × ν)} (hl : Distinct eq l) (h : Lawful eq) (hperm : l.Perm l') :
    Distinct eq l' :=
  hperm.pairwise hl fun hab => by rw [h.comm]; exact hab

/-- A replacement keeps the keys. -/
lemma map_fst_replace (k : κ) (v : ν) (l : List (κ × ν)) :
    (replace eq k v l).map Prod.fst = l.map Prod.fst := by
  induction l with
  | nil => rfl
  | cons e l ih =>
    rw [replace]
    split
    · rfl
    · rw [List.map_cons, List.map_cons, ih]

/-- Distinct keys. -/
lemma distinct_iff : Distinct eq l ↔ (l.map Prod.fst).Pairwise fun a b => eq a b = false := by
  rw [List.pairwise_map]
  rfl

/-- What is there after a replacement was there before, or has the new value. -/
lemma mem_replace {e : κ × ν} (he : e ∈ replace eq k v l) : e ∈ l ∨ e.2 = v := by
  induction l with
  | nil => cases he
  | cons e' l ih =>
    rw [replace] at he
    split_ifs at he
    · obtain rfl | he := List.mem_cons.mp he
      · exact Or.inr rfl
      · exact Or.inl (List.mem_cons_of_mem _ he)
    · obtain rfl | he := List.mem_cons.mp he
      · exact Or.inl List.mem_cons_self
      · exact (ih he).imp_left (List.mem_cons_of_mem _)

/-- A replacement takes one value away and adds one. -/
lemma countP_replace {v' : ν} (hk : find eq l k = some v') (P : ν → Prop) [DecidablePred P] :
    ((replace eq k v l).countP fun e => P e.2) + (if P v' then 1 else 0) =
      (l.countP fun e => P e.2) + if P v then 1 else 0 := by
  induction l with
  | nil => cases hk
  | cons e l ih =>
    rw [find_cons] at hk
    rw [replace]
    by_cases he : eq e.1 k = true
    · rw [if_pos he] at hk ⊢
      obtain rfl := Option.some.inj hk
      simp only [List.countP_cons, decide_eq_true_eq]
      omega
    · rw [if_neg he] at hk ⊢
      have hrest := ih hk
      simp only [List.countP_cons, decide_eq_true_eq]
      omega

/-- Keys stay distinct when a value is replaced. -/
lemma Distinct.replace (hl : Distinct eq l) (k : κ) (v : ν) : Distinct eq (replace eq k v l) := by
  rw [distinct_iff, map_fst_replace, ← distinct_iff]
  exact hl

/-- What is left is part of the list. -/
lemma erase_sublist (k : κ) (l : List (κ × ν)) : (erase eq k l).Sublist l := by
  induction l with
  | nil => exact List.Sublist.refl _
  | cons e l ih =>
    rw [erase]
    split
    · exact List.sublist_cons_self e l
    · exact ih.cons_cons e

/-- Keys stay distinct when one is taken away. -/
lemma Distinct.erase (hl : Distinct eq l) (k : κ) : Distinct eq (erase eq k l) :=
  hl.sublist (erase_sublist k l)

/-- Keys stay distinct when one that is not found is added. -/
lemma Distinct.concat (hl : Distinct eq l) (hk : find eq l k = none) (v : ν) :
    Distinct eq (l ++ [(k, v)]) := by
  refine List.pairwise_append.mpr ⟨hl, List.pairwise_singleton _ _, fun e he e' he' => ?_⟩
  obtain rfl := List.mem_singleton.mp he'
  exact find_eq_none_iff.mp hk e he

/-- Or put in front. -/
lemma Distinct.cons (h : Lawful eq) (hl : Distinct eq l) (hk : find eq l k = none) (v : ν) :
    Distinct eq ((k, v) :: l) := by
  refine List.pairwise_cons.mpr ⟨fun e he => ?_, hl⟩
  rw [h.comm]
  exact find_eq_none_iff.mp hk e he

/-- A replacement keeps the length. -/
@[simp] lemma length_replace (k : κ) (v : ν) (l : List (κ × ν)) :
    (replace eq k v l).length = l.length := by
  rw [← List.length_map (f := Prod.fst), map_fst_replace, List.length_map]

/-- The test for equal keys. -/
def same [DecidableEq κ] (a b : κ) : Bool := a = b

/-- It is an equivalence. -/
lemma lawful_same [DecidableEq κ] : Lawful (same : κ → κ → Bool) where
  refl _ := decide_eq_true rfl
  symm h := decide_eq_true (of_decide_eq_true h).symm
  trans h h' := decide_eq_true ((of_decide_eq_true h).trans (of_decide_eq_true h'))

/-! ## Two arrays -/

/-- **Searching two arrays** for a key gives the value at its index. -/
lemma find_zip {ks : List κ} {vs : List ν} (h : ks.length = vs.length) (k : κ) :
    find eq (ks.zip vs) k = (ks.findIdx? fun k' => eq k' k).bind fun i => vs[i]? := by
  induction ks generalizing vs with
  | nil => rfl
  | cons k' ks ih =>
    cases vs with
    | nil => cases h
    | cons v vs =>
      rw [List.zip_cons_cons, find_cons, List.findIdx?_cons]
      by_cases hk : eq k' k = true
      · rw [if_pos hk, if_pos hk]
        rfl
      · rw [if_neg hk, if_neg hk, ih (Nat.succ.inj h)]
        cases ks.findIdx? fun k' => eq k' k with
        | none => rfl
        | some i => rfl

/-- Replacing the value at the index. -/
lemma replace_zip {ks : List κ} {vs : List ν} {k : κ} {v : ν} {i : ℕ}
    (hi : (ks.findIdx? fun k' => eq k' k) = some i) :
    replace eq k v (ks.zip vs) = ks.zip (vs.set i v) := by
  induction ks generalizing vs i with
  | nil => cases hi
  | cons k' ks ih =>
    cases vs with
    | nil => rfl
    | cons v' vs =>
      rw [List.findIdx?_cons] at hi
      rw [List.zip_cons_cons, replace]
      by_cases hk : eq k' k = true
      · rw [if_pos hk] at hi ⊢
        obtain rfl := Option.some.inj hi
        rfl
      · rw [if_neg hk] at hi ⊢
        obtain ⟨j, hj, rfl⟩ := Option.map_eq_some_iff.mp hi
        rw [ih hj]
        rfl

/-- Taking the key and the value at the index away. -/
lemma erase_zip {ks : List κ} {vs : List ν} {k : κ} {i : ℕ}
    (hi : (ks.findIdx? fun k' => eq k' k) = some i) :
    erase eq k (ks.zip vs) = (ks.eraseIdx i).zip (vs.eraseIdx i) := by
  induction ks generalizing vs i with
  | nil => cases hi
  | cons k' ks ih =>
    cases vs with
    | nil =>
      rw [List.zip_nil_right, List.eraseIdx_nil, List.zip_nil_right]
      rfl
    | cons v' vs =>
      rw [List.findIdx?_cons] at hi
      rw [List.zip_cons_cons, erase]
      by_cases hk : eq k' k = true
      · rw [if_pos hk] at hi ⊢
        obtain rfl := Option.some.inj hi
        rfl
      · rw [if_neg hk] at hi ⊢
        obtain ⟨j, hj, rfl⟩ := Option.map_eq_some_iff.mp hi
        rw [ih hj]
        rfl

/-! ## The number of keys -/

/-- Keys up to the test. -/
def Lawful.setoid (h : Lawful eq) : Setoid κ where
  r k k' := eq k k' = true
  iseqv := ⟨h.refl, h.symm, h.trans⟩

/-- The keys of a map, up to the test. -/
def domain (h : Lawful eq) (m : κ → Option ν) : Set (Quotient h.setoid) :=
  {q | ∃ k, Quotient.mk h.setoid k = q ∧ (m k).isSome}

/-- **The number of keys** of a map is the length of a list that holds it. -/
theorem ncard_domain (h : Lawful eq) (hl : Distinct eq l) :
    (domain h (find eq l)).ncard = l.length := by
  classical
  let qs := l.map fun e => Quotient.mk h.setoid e.1
  have hnodup : qs.Nodup := by
    refine List.pairwise_map.mpr (hl.imp fun {a b} hab heq => ?_)
    have heq' : eq a.1 b.1 = true := Quotient.exact heq
    rw [hab] at heq'
    cases heq'
  have hdomain : domain h (find eq l) = ↑qs.toFinset := by
    ext q
    rw [List.coe_toFinset, Set.mem_ofPred_eq, List.mem_map]
    constructor
    · rintro ⟨k, rfl, hk⟩
      rw [Option.isSome_iff_ne_none, Ne, find_eq_none_iff] at hk
      push Not at hk
      obtain ⟨e, he, hek⟩ := hk
      exact ⟨e, he, Quotient.sound ((Bool.not_eq_false _).mp hek)⟩
    · rintro ⟨e, he, rfl⟩
      refine ⟨e.1, rfl, ?_⟩
      rw [Option.isSome_iff_ne_none, Ne, find_eq_none_iff]
      intro hnone
      have hself := hnone e he
      rw [h.refl] at hself
      cases hself
  rw [hdomain, Set.ncard_coe_finset, List.toFinset_card_of_nodup hnodup, List.length_map]

/-- **A list that has something for each element of another**, which is as long, and never the same
for two of them, has something for each of its own.

**Proof sketch.** What it has for them is an injection between sets of the same size. -/
theorem covers {α β : Type} {R : α → β → Prop} {as : List α} {bs : List β}
    (hlength : as.length = bs.length)
    (hapart : as.Pairwise fun a a' => ∀ b ∈ bs, R a b → ¬R a' b)
    (hcovered : ∀ a ∈ as, ∃ b ∈ bs, R a b) : ∀ b ∈ bs, ∃ a ∈ as, R a b := by
  have hindex : ∀ i : Fin as.length, ∃ j : Fin as.length, R as[i] (bs.get (j.cast hlength)) := by
    intro i
    obtain ⟨b, hb, hR⟩ := hcovered as[i] (List.getElem_mem _)
    obtain ⟨j, hj, rfl⟩ := List.mem_iff_getElem.mp hb
    exact ⟨⟨j, hlength ▸ hj⟩, hR⟩
  choose f hf using hindex
  have hne : ∀ i j : Fin as.length, i.1 < j.1 → f i ≠ f j := by
    intro i j hij heq
    have hR := hf j
    rw [← heq] at hR
    exact List.pairwise_iff_getElem.mp hapart i.1 j.1 i.2 j.2 hij _ (List.getElem_mem _) (hf i) hR
  have hinjective : Function.Injective f := by
    intro i j heq
    rcases Nat.lt_trichotomy i.1 j.1 with hlt | hij | hgt
    · exact absurd heq (hne i j hlt)
    · exact Fin.ext hij
    · exact absurd heq.symm (hne j i hgt)
  intro b hb
  obtain ⟨j, hj, rfl⟩ := List.mem_iff_getElem.mp hb
  obtain ⟨i, hi⟩ := Finite.injective_iff_surjective.mp hinjective ⟨j, hlength ▸ hj⟩
  refine ⟨as[i], List.getElem_mem _, ?_⟩
  have hR := hf i
  rw [hi] at hR
  exact hR

end KeyedList
