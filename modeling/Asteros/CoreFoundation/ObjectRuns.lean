import Asteros.CoreFoundation.ObjectEquality
import Asteros.Lib.Transition
import Mathlib.Data.Set.Card

set_option autoImplicit false

/-!
# Equality of the objects that a program builds

Runs of the functions that create and change objects. A program gives `CFDictionaryCreate` keys that
are pairwise unequal, and changes nothing that a member of a set or a key of a dictionary contains.
Then the comparisons that were made when a key or a member was added stay right, as nothing that
they looked at has changed, and no two of them are equal. For objects in which no container contains
itself, `CFEqual` is an equivalence.

## Main definitions

* `Permitted` — what a program promises for a call.
* `Regular` — an object in which no container contains itself.

## Main results

* `Sound.step` — no two keys or members are ever equal.
* `equality_and_hash` — the equivalence, and the hash codes.
-/

namespace Asteros.CoreFoundation.Graph

open Relation Transition

/-! ## Containing -/

/-- An object refers to another. -/
def Refers (h : Objects) (a b : ℕ) : Prop := ∃ body, h[a]? = some body ∧ b ∈ body.refs

/-- It is that object, or contains it, directly or through others. -/
def Reaches (h : Objects) : ℕ → ℕ → Prop := ReflTransGen (Refers h)

/-- A container contains itself. -/
def ContainsItself (h : Objects) (a : ℕ) : Prop := TransGen (Refers h) a a

/-- No container in an object, nor the object, contains itself. -/
def Regular (h : Objects) (a : ℕ) : Prop :=
  a < h.length ∧ ∀ b, Reaches h a b → ¬ContainsItself h b

/-- What a program promises for a call: the keys of a dictionary that is created are pairwise
unequal, and what is changed is not contained in a member of a set or in a key. -/
def Permitted (h : Objects) : Action → Prop
  | .make _ (.dictionary entries) => (entries.map Prod.fst).Pairwise fun x y => ¬Equals h x y
  | .make _ _ => True
  | .change _ a _ => ∀ body ∈ h, ∀ x ∈ body.guarded, ¬Reaches h x a

/-- All references are to objects, and no two keys or members are equal. -/
structure Sound (h : Objects) : Prop where
  valid : ∀ a b, Refers h a b → b < h.length
  apart : AllApart h

section

variable {h h' : Objects} {a b x n depth : ℕ} {l : List ℕ} {body body' : Body}

/-- What a regular object contains is bounded. -/
lemma Reaches.lt (hs : Sound h) (ha : a < h.length) (hab : Reaches h a b) : b < h.length := by
  rcases ReflTransGen.cases_tail hab with rfl | ⟨c, -, hcb⟩
  · exact ha
  · exact hs.valid c b hcb

/-- **A regular object is grounded.**

**Proof sketch.** By induction on the number of objects in it: what it refers to does not contain
it. -/
theorem Regular.grounded (hs : Sound h) (ha : Regular h a) : Grounded h a := by
  have hfin : ∀ a, a < h.length → {b | Reaches h a b}.Finite := by
    intro a ha
    exact (Set.finite_lt_nat h.length).subset fun b hb => Reaches.lt hs ha hb
  generalize hn : {b | Reaches h a b}.ncard = n
  induction n using Nat.strong_induction_on generalizing a with
  | _ n ih =>
    obtain ⟨body, hbody⟩ : ∃ body, h[a]? = some body := ⟨_, List.getElem?_eq_getElem ha.1⟩
    refine .intro a body hbody fun x hx => ?_
    have hax : Refers h a x := ⟨body, hbody, hx⟩
    have hsub : {b | Reaches h x b} ⊂ {b | Reaches h a b} := by
      refine ⟨fun b hb => ReflTransGen.head hax hb, fun hle => ?_⟩
      have hxa : Reaches h x a := hle ReflTransGen.refl
      exact ha.2 a ReflTransGen.refl (TransGen.head' hax hxa)
    refine ih _ ?_ ⟨hs.valid a x hax, fun b hb => ha.2 b (ReflTransGen.head hax hb)⟩ rfl
    rw [← hn]
    exact Set.ncard_lt_ncard hsub (hfin a ha.1)

/-- A grounded object does not contain itself. -/
lemma Grounded.not_containsItself (ha : Grounded h a) : ¬ContainsItself h a := by
  induction ha with
  | intro a body hbody _ ih =>
    intro hself
    obtain ⟨x, ⟨body₁, hbody₁, hx⟩, hxa⟩ := TransGen.head'_iff.mp hself
    obtain rfl := Option.some_inj.mp (hbody.symm.trans hbody₁)
    exact ih x hx (TransGen.tail' hxa ⟨body, hbody, hx⟩)

/-! ## What a change leaves alone -/

/-- Nothing in an object has changed. -/
def Same (h h' : Objects) (x : ℕ) : Prop := ∀ z, Reaches h x z → h'[z]? = h[z]?

/-- Nor in what it refers to. -/
lemma Same.refs (hsame : Same h h' a) (hbody : h[a]? = some body) (hx : x ∈ body.refs) :
    Same h h' x :=
  fun z hz => hsame z (ReflTransGen.head ⟨body, hbody, hx⟩ hz)

/-- The object contains the same. -/
lemma Same.symm (hsame : Same h h' x) : Same h' h x := by
  have hreaches : ∀ z, Reaches h' x z → Reaches h x z := by
    intro z hz
    induction hz with
    | refl => exact ReflTransGen.refl
    | tail _ hyz ih =>
      obtain ⟨body, hbody, hmem⟩ := hyz
      exact ReflTransGen.tail ih ⟨body, (hsame _ ih).symm.trans hbody, hmem⟩
  exact fun z hz => (hsame z (hreaches z hz)).symm

/-- Comparisons have the same result. -/
lemma Same.cfEqual {r : Bool} (ha : Same h h' a) (hb : Same h h' b)
    (hr : cfEqual n h a b = some r) : cfEqual n h' a b = some r := by
  induction n generalizing a b r with
  | zero => cases hr
  | succ n ih =>
    rw [Graph.cfEqual] at hr ⊢
    rw [ha a ReflTransGen.refl, hb b ReflTransGen.refl]
    split_ifs at hr ⊢ with heq
    · exact hr
    · split at hr
      · next body body' hbody hbody' =>
        exact Body.equal_mono
          (fun x hx y hy r hxy => ih (ha.refs hbody hx) (hb.refs hbody' hy) hxy)
          (fun x hx y hy r hyx => ih (hb.refs hbody' hy) (ha.refs hbody hx) hyx) hr
      · cases hr

/-- Objects are equal that were. -/
lemma Same.equals (ha : Same h h' a) (hb : Same h h' b) (hab : Equals h a b) : Equals h' a b := by
  obtain ⟨n, hn⟩ := hab
  exact ⟨n, ha.cfEqual hb hn⟩

/-- An object is grounded that was. -/
lemma Same.grounded (hsame : Same h h' a) (ha : Grounded h a) : Grounded h' a := by
  induction ha with
  | intro a body hbody _ ih =>
    refine .intro a body ((hsame a ReflTransGen.refl).trans hbody) fun x hx => ?_
    exact ih x hx (hsame.refs hbody hx)

/-- Objects stay unequal, if those in which something has changed are not grounded any more. -/
lemma Apart.same (hl : Apart h l) (hsame : ∀ x ∈ l, Same h h' x ∨ ¬Grounded h' x) : Apart h' l := by
  refine List.Pairwise.imp_of_mem (fun {x y} hx hy hne hgx hgy hxy => ?_) hl
  have hx' := (hsame x hx).resolve_right (not_not.mpr hgx)
  have hy' := (hsame y hy).resolve_right (not_not.mpr hgy)
  exact hne (hx'.symm.grounded hgx) (hy'.symm.grounded hgy) (hx'.symm.equals hy'.symm hxy)

/-! ## Keys and members -/

/-- An element that is not found is apart from those that are there. -/
lemma Apart.concat (hl : Apart h l) (hnone : find (cfEqual depth h) x l = some none) :
    Apart h (l ++ [x]) := by
  refine List.pairwise_append.mpr ⟨hl, List.pairwise_singleton _ _, fun y hy z hz => ?_⟩
  obtain rfl := List.mem_singleton.mp hz
  exact fun _ _ => not_equals_of_false (find_none_iff.mp hnone y hy)

/-- **An element can be put in the place of an equal one**, which is the first.

**Proof sketch.** Where it is grounded, so is the one before, which was apart from those behind. -/
lemma Apart.set (hs : Sound h) (hl : Apart h l) {i : ℕ}
    (hsome : find (cfEqual depth h) x l = some (some i)) : Apart h (l.set i x) := by
  obtain ⟨y, hy, heq, hfirst⟩ := find_some_iff.mp hsome
  obtain ⟨hi, rfl⟩ := List.getElem?_eq_some_iff.mp hy
  have hyx : Equals h l[i] x := ⟨depth, heq⟩
  have hsplit : l = l.take i ++ l[i] :: l.drop (i + 1) := by
    rw [← List.drop_eq_getElem_cons hi, List.take_append_drop]
  rw [List.set_eq_take_append_cons_drop, if_pos hi]
  unfold Apart at hl
  rw [hsplit, List.pairwise_append, List.pairwise_cons] at hl
  obtain ⟨hbefore, ⟨hafter, hrest⟩, hacross⟩ := hl
  refine List.pairwise_append.mpr ⟨hbefore, List.pairwise_cons.mpr ⟨?_, hrest⟩, ?_⟩
  · intro z hz hgx hgz hxz
    have hgy : Grounded h l[i] := grounded_of_equals hs.apart hgx (Or.inl hyx)
    exact hafter z hz hgy hgz (hyx.trans hs.apart hgy hgx hgz hxz)
  · intro z hz w hw
    rcases List.mem_cons.mp hw with rfl | hw
    · exact fun _ _ => not_equals_of_false (hfirst z hz)
    · exact hacross z hz w (List.mem_cons_of_mem _ hw)

/-- The members that `CFSetCreate` takes are apart, and are among the values. -/
lemma setCreate_spec {xs s s' : List ℕ} (hs : Apart h s)
    (hcreate : setCreate (cfEqual depth h) s xs = some s') :
    Apart h s' ∧ ∀ y ∈ s', y ∈ s ∨ y ∈ xs := by
  induction xs generalizing s with
  | nil =>
    cases hcreate
    exact ⟨hs, fun y hy => Or.inl hy⟩
  | cons x xs ih =>
    rw [setCreate] at hcreate
    obtain ⟨i, hi, hrest⟩ := Option.bind_eq_some_iff.mp hcreate
    cases i with
    | some i =>
      obtain ⟨hapart, hmem⟩ := ih hs hrest
      exact ⟨hapart, fun y hy => (hmem y hy).imp_right (List.mem_cons_of_mem _)⟩
    | none =>
      obtain ⟨hapart, hmem⟩ := ih (hs.concat hi) hrest
      refine ⟨hapart, fun y hy => ?_⟩
      rcases hmem y hy with hy | hy
      · rcases List.mem_append.mp hy with hy | hy
        · exact Or.inl hy
        · exact Or.inr (List.mem_singleton.mp hy ▸ List.mem_cons_self)
      · exact Or.inr (List.mem_cons_of_mem _ hy)

/-- The object that is created refers to objects, and its keys or members are apart. -/
lemma make_spec (hs : Sound h) {m : Make} (hpermitted : Permitted h (.make depth m))
    (hargs : ∀ x ∈ m.args, x < h.length) (hmake : m.body (cfEqual depth h) h = some body) :
    (∀ x ∈ body.refs, x < h.length) ∧ Apart h body.guarded := by
  have hcopy : ∀ {c : ℕ} {body : Body}, h[c]? = some body → ∀ x ∈ body.refs, x < h.length :=
    fun {c body} hc x hx => hs.valid c x ⟨body, hc, hx⟩
  have hempty : Apart h [] := List.Pairwise.nil
  cases m with
  | string buffer =>
    cases hmake
    exact ⟨nofun, hempty⟩
  | data bytes =>
    cases hmake
    exact ⟨nofun, hempty⟩
  | array values =>
    cases hmake
    exact ⟨hargs, hempty⟩
  | arrayMutable =>
    cases hmake
    exact ⟨nofun, hempty⟩
  | arrayCopy theArray =>
    simp only [Make.body] at hmake
    split at hmake
    · next values hvalues =>
      cases hmake
      exact ⟨hcopy hvalues, hempty⟩
    · cases hmake
  | dictionary entries =>
    cases hmake
    exact ⟨hargs, hpermitted.imp fun hne _ _ => hne⟩
  | dictionaryMutable =>
    cases hmake
    exact ⟨nofun, hempty⟩
  | dictionaryCopy theDict =>
    simp only [Make.body] at hmake
    split at hmake
    · next entries hentries =>
      cases hmake
      exact ⟨hcopy hentries, hs.apart _ _ hentries⟩
    · cases hmake
  | set values =>
    obtain ⟨s, hcreate, rfl⟩ := Option.map_eq_some_iff.mp hmake
    obtain ⟨hapart, hmem⟩ := setCreate_spec hempty hcreate
    exact ⟨fun x hx => hargs x ((hmem x hx).resolve_left List.not_mem_nil), hapart⟩
  | setMutable =>
    cases hmake
    exact ⟨nofun, hempty⟩
  | setCopy theSet =>
    simp only [Make.body] at hmake
    split at hmake
    · next values hvalues =>
      obtain ⟨s, hcreate, rfl⟩ := Option.map_eq_some_iff.mp hmake
      obtain ⟨hapart, hmem⟩ := setCreate_spec hempty hcreate
      exact ⟨fun x hx => hcopy hvalues x ((hmem x hx).resolve_left List.not_mem_nil), hapart⟩
    · cases hmake
  | setMutableCopy theSet =>
    simp only [Make.body] at hmake
    split at hmake
    · next values hvalues =>
      cases hmake
      exact ⟨hcopy hvalues, hs.apart _ _ hvalues⟩
    · cases hmake

/-- What is stored under a key leaves the keys apart. -/
lemma storeValue_spec {entries entries' : List (ℕ × ℕ)} {key value : ℕ}
    (hl : Apart h (entries.map Prod.fst))
    (hstore : storeValue (cfEqual depth h) entries key value = some entries') :
    (∀ x ∈ (Body.dictionary entries').refs, x ∈ (Body.dictionary entries).refs ∨ x ∈ [key, value]) ∧
      Apart h (entries'.map Prod.fst) := by
  obtain ⟨i, hi, rfl⟩ := Option.map_eq_some_iff.mp hstore
  cases i with
  | none =>
    constructor
    · intro x hx
      simp only [Body.refs, List.map_append, List.mem_append, List.map_cons, List.map_nil,
        List.mem_cons, List.not_mem_nil, or_false] at hx ⊢
      tauto
    · rw [List.map_append]
      exact hl.concat hi
  | some i =>
    have hkeys : (entries.modify i fun e => (e.1, value)).map Prod.fst = entries.map Prod.fst := by
      apply List.ext_getElem (by simp)
      intro j hj hj'
      simp only [List.getElem_map, List.getElem_modify]
      split <;> rfl
    refine ⟨fun x hx => ?_, by rw [hkeys]; exact hl⟩
    rcases List.mem_append.mp hx with hx | hx
    · rw [hkeys] at hx
      exact Or.inl (List.mem_append_left _ hx)
    · obtain ⟨e, he, rfl⟩ := List.mem_map.mp hx
      obtain ⟨j, hj, rfl⟩ := List.mem_iff_getElem.mp he
      rw [List.getElem_modify]
      split
      · simp
      · exact Or.inl (snd_mem_refs (List.getElem_mem _))

/-- So does what is removed. -/
lemma dictErase_spec {entries : List (ℕ × ℕ)} (hl : Apart h (entries.map Prod.fst)) (i : ℕ)
    {args : List ℕ} :
    (∀ x ∈ (Body.dictionary (entries.eraseIdx i)).refs,
      x ∈ (Body.dictionary entries).refs ∨ x ∈ args) ∧
      Apart h ((entries.eraseIdx i).map Prod.fst) := by
  have hsub := List.eraseIdx_sublist entries i
  refine ⟨fun x hx => Or.inl ?_, hl.sublist (hsub.map _)⟩
  exact ((hsub.map Prod.fst).append (hsub.map Prod.snd)).subset hx

/-- The members stay apart when one is added. -/
lemma addMember_spec {values values' : List ℕ} {value : ℕ} (hl : Apart h values)
    (hadd : addMember (cfEqual depth h) values value = some values') :
    (∀ x ∈ values', x ∈ values ∨ x ∈ [value]) ∧ Apart h values' := by
  obtain ⟨i, hi, rfl⟩ := Option.map_eq_some_iff.mp hadd
  cases i with
  | none => exact ⟨fun x hx => List.mem_append.mp hx, hl.concat hi⟩
  | some i => exact ⟨fun x hx => Or.inl hx, hl⟩

/-- The object that is changed refers to what it did and to what is passed, and its keys or members
are apart. -/
lemma change_spec (hs : Sound h) {c : Change} (hl : Apart h body.guarded)
    (hchange : c.body (cfEqual depth h) body = some body') :
    (∀ x ∈ body'.refs, x ∈ body.refs ∨ x ∈ c.args) ∧ Apart h body'.guarded := by
  have hempty : Apart h [] := List.Pairwise.nil
  unfold Change.body at hchange
  split at hchange
  · cases hchange
    exact ⟨nofun, hempty⟩
  · cases hchange
    exact ⟨nofun, hempty⟩
  · cases hchange
    exact ⟨fun x hx => List.mem_append.mp hx, hempty⟩
  · split_ifs at hchange with hidx
    · cases hchange
      exact ⟨fun x hx => (List.eq_or_mem_of_mem_insertIdx hx).symm.imp_right
        List.mem_singleton.mpr, hempty⟩
  · split_ifs at hchange with hidx
    · cases hchange
      exact ⟨fun x hx => (List.mem_or_eq_of_mem_set hx).imp_right List.mem_singleton.mpr, hempty⟩
  · split_ifs at hchange with hidx
    · cases hchange
      exact ⟨fun x hx => Or.inl (List.mem_of_mem_eraseIdx hx), hempty⟩
  · obtain ⟨entries', hstore, rfl⟩ := Option.map_eq_some_iff.mp hchange
    exact storeValue_spec hl hstore
  · obtain ⟨i, hi, hrest⟩ := Option.bind_eq_some_iff.mp hchange
    split_ifs at hrest with hsome
    · cases hrest
      exact ⟨fun x hx => Or.inl hx, hl⟩
    · obtain ⟨entries', hstore, rfl⟩ := Option.map_eq_some_iff.mp hrest
      exact storeValue_spec hl hstore
  · obtain ⟨i, hi, rfl⟩ := Option.map_eq_some_iff.mp hchange
    cases i with
    | none => exact ⟨fun x hx => Or.inl hx, hl⟩
    | some i =>
      exact dictErase_spec hl i
  · obtain ⟨values', hadd, rfl⟩ := Option.map_eq_some_iff.mp hchange
    exact addMember_spec hl hadd
  · obtain ⟨i, hi, hrest⟩ := Option.bind_eq_some_iff.mp hchange
    cases i with
    | some i =>
      cases hrest
      exact ⟨fun x hx => (List.mem_or_eq_of_mem_set hx).imp_right List.mem_singleton.mpr,
        hl.set hs hi⟩
    | none =>
      obtain ⟨values', hadd, rfl⟩ := Option.map_eq_some_iff.mp hrest
      exact addMember_spec hl hadd
  · obtain ⟨i, hi, rfl⟩ := Option.map_eq_some_iff.mp hchange
    cases i with
    | none => exact ⟨fun x hx => Or.inl hx, hl⟩
    | some i =>
      exact ⟨fun x hx => Or.inl (List.mem_of_mem_eraseIdx hx),
        hl.sublist (List.eraseIdx_sublist _ _)⟩
  · cases hchange
    exact ⟨nofun, hempty⟩
  · cases hchange
    exact ⟨nofun, hempty⟩
  · cases hchange
    exact ⟨nofun, hempty⟩
  · cases hchange

/-! ## Steps -/

/-- An object that does not contain the one that is changed stays the same. -/
lemma same_set (hne : ¬Reaches h x a) : Same h (h.set a body) x := by
  intro z hz
  rw [List.getElem?_set_ne]
  rintro rfl
  exact hne hz

/-- One that contains it still does. -/
lemma Reaches.set (hxa : Reaches h x a) : Reaches (h.set a body) x a := by
  induction hxa using ReflTransGen.head_induction_on with
  | refl => exact ReflTransGen.refl
  | @head y z hyz _ ih =>
    by_cases heq : y = a
    · rw [heq]
      exact ReflTransGen.refl
    · obtain ⟨body₁, hbody₁, hz⟩ := hyz
      refine ReflTransGen.head ⟨body₁, ?_, hz⟩ ih
      rwa [List.getElem?_set_ne (Ne.symm heq)]

/-- An object is created. -/
lemma Sound.make (hs : Sound h) (hrefs : ∀ x ∈ body.refs, x < h.length)
    (hapart : Apart h body.guarded) : Sound (h ++ [body]) := by
  have hsame : ∀ x, x < h.length → Same h (h ++ [body]) x :=
    fun x hx z hz => List.getElem?_append_left (Reaches.lt hs hx hz)
  have hcases : ∀ (a : ℕ) (body₁ : Body), (h ++ [body])[a]? = some body₁ →
      h[a]? = some body₁ ∨ body₁ = body := by
    intro a body₁ hbody₁
    rcases Nat.lt_or_ge a h.length with ha | ha
    · rw [List.getElem?_append_left ha] at hbody₁
      exact Or.inl hbody₁
    · rw [List.getElem?_append_right ha] at hbody₁
      exact Or.inr (List.mem_singleton.mp (List.mem_of_getElem? hbody₁))
  constructor
  · rintro a b ⟨body₁, hbody₁, hb⟩
    rw [List.length_append, List.length_singleton]
    rcases hcases a body₁ hbody₁ with hold | rfl
    · exact Nat.lt_succ_of_lt (hs.valid a b ⟨body₁, hold, hb⟩)
    · exact Nat.lt_succ_of_lt (hrefs b hb)
  · intro g body₁ hbody₁
    rcases hcases g body₁ hbody₁ with hold | rfl
    · refine (hs.apart g body₁ hold).same fun x hx => Or.inl (hsame x ?_)
      exact hs.valid g x ⟨body₁, hold, Body.refs_of_guarded hx⟩
    · exact hapart.same fun x hx => Or.inl (hsame x (hrefs x (Body.refs_of_guarded hx)))

/-- An object is changed that no key or member contains. -/
lemma Sound.change (hs : Sound h)
    (hfree : ∀ body ∈ h, ∀ x ∈ body.guarded, ¬Reaches h x a)
    (ha : a < h.length) (hrefs : ∀ x ∈ body.refs, x < h.length) (hapart : Apart h body.guarded) :
    Sound (h.set a body) := by
  constructor
  · rintro g b ⟨body₁, hbody₁, hb⟩
    rw [List.length_set]
    by_cases heq : a = g
    · rw [← heq, List.getElem?_set_self ha] at hbody₁
      obtain rfl := Option.some_inj.mp hbody₁
      exact hrefs b hb
    · rw [List.getElem?_set_ne heq] at hbody₁
      exact hs.valid g b ⟨body₁, hbody₁, hb⟩
  · intro g body₁ hbody₁
    by_cases heq : a = g
    · rw [← heq, List.getElem?_set_self ha] at hbody₁
      obtain rfl := Option.some_inj.mp hbody₁
      refine hapart.same fun x hx => ?_
      by_cases hxa : Reaches h x a
      · -- the container is now in one of its own keys or members
        refine Or.inr fun hgrounded => hgrounded.not_containsItself (TransGen.tail' hxa.set ?_)
        exact ⟨body, List.getElem?_set_self ha, Body.refs_of_guarded hx⟩
      · exact Or.inl (same_set hxa)
    · rw [List.getElem?_set_ne heq] at hbody₁
      have hmem := List.mem_of_getElem? hbody₁
      exact (hs.apart g body₁ hbody₁).same fun x hx => Or.inl (same_set (hfree body₁ hmem x hx))

/-- **No two keys or members are ever equal.** -/
theorem Sound.step (hs : Sound h) {action : Action} (hpermitted : Permitted h action)
    (hstep : Graph.step h action = some h') : Sound h' := by
  cases action with
  | make depth m =>
    rw [Graph.step] at hstep
    split_ifs at hstep with hargs
    obtain ⟨body, hmake, rfl⟩ := Option.map_eq_some_iff.mp hstep
    obtain ⟨hrefs, hapart⟩ := make_spec hs hpermitted hargs hmake
    exact hs.make hrefs hapart
  | change depth a c =>
    rw [Graph.step] at hstep
    split_ifs at hstep with hargs
    obtain ⟨body, hbody, hrest⟩ := Option.bind_eq_some_iff.mp hstep
    obtain ⟨body', hchange, rfl⟩ := Option.map_eq_some_iff.mp hrest
    obtain ⟨hrefs, hapart⟩ := change_spec hs (hs.apart a body hbody) hchange
    obtain ⟨ha, -⟩ := List.getElem?_eq_some_iff.mp hbody
    refine hs.change hpermitted ha (fun x hx => ?_) hapart
    rcases hrefs x hx with hx | hx
    · exact hs.valid a x ⟨body, hbody, hx⟩
    · exact hargs x hx

/-- There is nothing to keep apart at first. -/
lemma sound_start : Sound start := by
  have hbody : ∀ (a : ℕ) (body : Body), start[a]? = some body → body.refs = [] := by
    intro a body hbody
    have hmem := List.mem_of_getElem? hbody
    simp only [start, List.mem_cons, List.not_mem_nil, or_false] at hmem
    rcases hmem with rfl | rfl <;> rfl
  constructor
  · rintro a b ⟨body, ha, hb⟩
    rw [hbody a body ha] at hb
    cases hb
  · intro g body hg
    have hnil : body.guarded = [] := by
      rw [List.eq_nil_iff_forall_not_mem]
      intro x hx
      have hmem := Body.refs_of_guarded hx
      rw [hbody g body hg] at hmem
      cases hmem
    rw [hnil]
    exact List.Pairwise.nil

/-- **Equality and hash codes.** In every run in which a program keeps its promises, `CFEqual`
returns for objects in which no container contains itself, is an equivalence of them, and is true
only for objects with the same hash code. -/
theorem equality_and_hash {actions : List Action}
    (hpermitted : Along Graph.step Permitted start actions)
    (hrun : exec Graph.step start actions = some h) :
    (Equivalence fun a b : { a // Regular h a } => Equals h a b) ∧
      ∀ a b, Regular h a → Regular h b → (∃ depth r, cfEqual depth h a b = some r) ∧
        (Equals h a b → cfHash h a = cfHash h b) := by
  have hs : Sound h := invariant_along (fun _ _ _ hs hp hstep => hs.step hp hstep) sound_start
    hpermitted hrun
  refine ⟨⟨fun a => Equals.refl a.1, fun {a b} hab => ?_, fun {a b c} hab hbc => ?_⟩,
    fun a b ha hb => ⟨?_, Equals.cfHash_eq⟩⟩
  · exact hab.symm hs.apart (a.2.grounded hs) (b.2.grounded hs)
  · exact hab.trans hs.apart (a.2.grounded hs) (b.2.grounded hs) (c.2.grounded hs) hbc
  · exact (ha.grounded hs).returns hs.apart (hb.grounded hs)

end

/-- A condition of calls that is enough for a program to keep its promises: a dictionary has one key
at most, and keys and members refer to nothing. -/
def Untouched (h : Objects) : Action → Bool
  | .make _ (.dictionary entries) => entries.length ≤ 1
  | .make _ _ => true
  | .change _ a _ => h.all fun body => body.guarded.all fun x => x ≠ a && h[x]?.all (·.refs = [])

/-- It is. -/
lemma permitted_of_untouched {h : Objects} {action : Action} (hu : Untouched h action = true) :
    Permitted h action := by
  cases action with
  | make depth m =>
    cases m with
    | dictionary entries =>
      rcases entries with _ | ⟨e, _ | ⟨e', entries⟩⟩
      · exact List.Pairwise.nil
      · exact List.pairwise_singleton _ _
      · simp [Untouched] at hu
    | _ => trivial
  | change depth a c =>
    simp only [Untouched, List.all_eq_true, Bool.and_eq_true, decide_eq_true_eq] at hu
    intro body hbody x hx hxa
    obtain ⟨hne, hrefs⟩ := hu body hbody x hx
    rcases ReflTransGen.cases_head hxa with heq | ⟨y, ⟨body', hbody', hy⟩, -⟩
    · exact hne heq
    · rw [hbody', Option.all_some, decide_eq_true_eq] at hrefs
      rw [hrefs] at hy
      cases hy

/-- Equal sets of equal strings, made in different orders, as keys of dictionaries. -/
def equalSets : List Action :=
  [.make 1 (.string [49]), .make 1 (.string [50]), .make 1 (.string [49]), .make 1 .setMutable,
    .change 2 5 (.setAddValue 2), .change 2 5 (.setAddValue 3), .make 2 (.set [3, 4, 2]),
    .make 2 (.dictionary [(5, 0)]), .make 2 (.dictionary [(6, 0)])]

/-- They are compared by an equivalence. -/
theorem equality_and_hash_equalSets :
    ∃ h, exec step start equalSets = some h ∧ Equals h 7 8 ∧
      Equivalence fun a b : { a // Regular h a } => Equals h a b := by
  have hpermitted : Along step Permitted start equalSets :=
    Along.mono (C := fun h action => Untouched h action = true)
      (fun _ _ hu => permitted_of_untouched hu) (by decide +kernel)
  obtain ⟨h, hrun, heq⟩ : ∃ h, exec step start equalSets = some h ∧
      cfEqual 4 h 7 8 = some true := ⟨_, rfl, by decide +kernel⟩
  exact ⟨h, hrun, ⟨4, heq⟩, (equality_and_hash hpermitted hrun).1⟩

/-! ## Containers that contain themselves, and changes inside of members -/

/-- Two arrays that contain themselves, and sets in which they are. -/
def cyclic : List Action :=
  [.make 1 (.string [49]), .make 1 (.string [50]), .make 1 .arrayMutable,
    .change 1 4 (.appendValue 4), .make 1 .arrayMutable, .change 1 5 (.appendValue 5),
    .make 4 (.set [3, 5]), .make 4 (.set [2, 4]), .make 4 (.set [4, 2]), .make 4 (.set [6]),
    .make 4 (.set [7]), .make 4 (.set [8]), .make 4 (.set [9, 10]), .make 4 (.set [11, 9])]

/-- The objects. -/
def cyclicObjects : Objects :=
  [.boolean false, .boolean true, .string [49], .string [50], .array [4], .array [5], .set [3, 5],
    .set [2, 4], .set [4, 2], .set [6], .set [7], .set [8], .set [9, 10], .set [11, 9]]

/-- The comparison of the arrays does not come to an end, and with it that of the sets. -/
lemma cfEqual_cyclicObjects (depth : ℕ) : cfEqual depth cyclicObjects 13 12 = none := by
  have harrays : ∀ n, cfEqual n cyclicObjects 5 4 = none := by
    intro n
    induction n with
    | zero => rfl
    | succ n ih =>
      have hcall : cfEqual (n + 1) cyclicObjects 5 4 =
          valuesEqual (cfEqual n cyclicObjects) [5] [4] := rfl
      rw [hcall, valuesEqual, ih, Option.bind_none]
  have hmembers : ∀ n, cfEqual n cyclicObjects 8 6 = none := by
    intro n
    rcases n with _ | _ | n
    · rfl
    · rfl
    · have hcall : cfEqual (n + 2) cyclicObjects 8 6 =
          membersEqual (cfEqual (n + 1) cyclicObjects) [3, 5] [4, 2] := rfl
      have hstring : cfEqual (n + 1) cyclicObjects 3 4 = some false := rfl
      rw [hcall, membersEqual, find, hstring, Option.bind_some, if_neg Bool.false_ne_true, find,
        harrays, Option.bind_none, Option.map_none, Option.bind_none]
  have hsets : ∀ n, cfEqual n cyclicObjects 9 11 = none := by
    intro n
    cases n with
    | zero => rfl
    | succ n =>
      have hcall : cfEqual (n + 1) cyclicObjects 9 11 =
          membersEqual (cfEqual n cyclicObjects) [8] [6] := rfl
      rw [hcall, membersEqual, find, hmembers, Option.bind_none, Option.bind_none]
  cases depth with
  | zero => rfl
  | succ n =>
    have hcall : cfEqual (n + 1) cyclicObjects 13 12 =
        membersEqual (cfEqual n cyclicObjects) [9, 10] [11, 9] := rfl
    rw [hcall, membersEqual, find, hsets, Option.bind_none, Option.bind_none]

/-- No member of a set and no key is changed itself; what it contains may be. -/
def PermittedInside (h : Objects) : Action → Prop
  | .make _ (.dictionary entries) => (entries.map Prod.fst).Pairwise fun x y => ¬Equals h x y
  | .make _ _ => True
  | .change _ a _ => ∀ body ∈ h, a ∉ body.guarded

/-- A set of two arrays of arrays, which become equal by a change to what is in one of them. -/
def inside : List Action :=
  [.make 1 (.string [49]), .make 1 .arrayMutable, .make 1 (.array [2]), .make 1 (.array [3]),
    .make 1 (.array [4]), .make 3 (.set [5, 6]), .change 1 3 (.appendValue 2),
    .make 1 (.array [4]), .make 4 (.set [8, 2])]

/-- No member or key is changed itself, and no dictionary is created. -/
def Unguarded (h : Objects) : Action → Bool
  | .make _ (.dictionary _) => false
  | .make _ _ => true
  | .change _ a _ => h.all fun body => a ∉ body.guarded

/-- That is enough for a program that only looks at what it changes itself. -/
lemma permittedInside_of_unguarded {h : Objects} {action : Action}
    (hu : Unguarded h action = true) : PermittedInside h action := by
  cases action with
  | make depth m =>
    cases m with
    | dictionary entries => cases hu
    | _ => trivial
  | change depth a c => simpa [Unguarded, PermittedInside] using hu

/-- **Equality is not symmetric** for the sets around the containers that contain themselves, as it
is true in one direction and does not come to an end in the other; nor is it for the set whose
members became equal. -/
theorem not_equality_and_hash :
    (∃ h, exec step start cyclic = some h ∧ Along step Permitted start cyclic ∧ Equals h 12 13 ∧
      ∀ depth, cfEqual depth h 13 12 = none) ∧
    ∃ h, exec step start inside = some h ∧ Along step PermittedInside start inside ∧
      Equals h 7 9 ∧ ¬Equals h 9 7 := by
  constructor
  · refine ⟨cyclicObjects, by decide +kernel, ?_, ⟨5, by decide +kernel⟩, cfEqual_cyclicObjects⟩
    exact Along.mono (C := fun h action => Untouched h action = true)
      (fun _ _ hu => permitted_of_untouched hu) (by decide +kernel)
  · obtain ⟨h, hrun, heq, hne⟩ : ∃ h, exec step start inside = some h ∧
        cfEqual 4 h 7 9 = some true ∧ cfEqual 4 h 9 7 = some false :=
      ⟨_, rfl, by decide +kernel, by decide +kernel⟩
    refine ⟨h, hrun, ?_, ⟨4, heq⟩, not_equals_of_false hne⟩
    exact Along.mono (C := fun h action => Unguarded h action = true)
      (fun _ _ hu => permittedInside_of_unguarded hu) (by decide +kernel)

end Asteros.CoreFoundation.Graph
