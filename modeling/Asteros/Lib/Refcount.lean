import Mathlib.Algebra.BigOperators.Group.Finset.Basic
import Mathlib.Algebra.Order.BigOperators.Group.Finset
import Mathlib.Algebra.Ring.Int.Defs
import Mathlib.Data.List.Count
import Mathlib.Logic.Function.Basic
import Mathlib.Logic.Relation

set_option autoImplicit false

/-!
# Reference counts

Objects that refer to one another, each with a count of the references to it. Releasing a reference
lowers the count; at zero the object releases its own references, one after the other, and is then
freed. Some objects are not counted at all, and live forever. References may be shared and may form
cycles.

When the counts are right, that is, when each is the number of references from objects that are
alive and from outside, then a release comes to an end, the counts are right again, and exactly the
objects that nothing else keeps are gone.

## Main definitions

* `Heap`, `release` — the objects, and the release of a reference.
* `Balanced` — the counts are right.
* `Doomed` — nothing from outside keeps the object.
* `replace` — an object releases one reference, takes another and stores it.

## Main results

* `release_exact` — what a release does to objects whose counts are right.
* `release_sameBut` — it does not matter what an object refers to that survives it.
* `replace_spec`, `not_doomed_of_replace` — the new object survives the replacement exactly if
  something else keeps it.
* `balanced_retain`, `balanced_alloc`, `store_adopt` — a reference is taken, an object is made, and
  references from outside become references of an object.
-/

namespace Refcount

/-- An object. -/
structure Cell (β : Type) where
  /-- Its count. -/
  count : ℤ
  /-- It is not counted. -/
  immortal : Bool
  /-- The rest of it. -/
  body : β
  deriving DecidableEq

/-- The objects, by their addresses. -/
structure Heap (ι β : Type) where
  /-- The object at an address. -/
  cell : ι → Option (Cell β)
  /-- The addresses that have been in use. -/
  dom : Finset ι
  /-- Objects are at such addresses. -/
  mem_dom : ∀ a, (cell a).isSome → a ∈ dom

variable {ι β : Type} (refs : β → List ι)

namespace Heap

/-- The count of an object, 0 if there is none. -/
def count (h : Heap ι β) (a : ι) : ℤ := ((h.cell a).map Cell.count).getD 0

/-- What an object is, but for its count. -/
def object (h : Heap ι β) (a : ι) : Option (β × Bool) :=
  (h.cell a).map fun c => (c.body, c.immortal)

/-- There is an object that is not counted. -/
def Immortal (h : Heap ι β) (a : ι) : Prop := ∃ c, h.cell a = some c ∧ c.immortal = true

/-- An object that has not been given up. -/
def Alive (h : Heap ι β) (a : ι) : Prop :=
  ∃ c, h.cell a = some c ∧ (c.immortal = true ∨ 0 < c.count)

instance (h : Heap ι β) (a : ι) : Decidable (h.Immortal a) :=
  match hc : h.cell a with
  | none => .isFalse (by simp [Immortal, hc])
  | some c => decidable_of_iff (c.immortal = true) (by simp [Immortal, hc])

instance (h : Heap ι β) (a : ι) : Decidable (h.Alive a) :=
  match hc : h.cell a with
  | none => .isFalse (by simp [Alive, hc])
  | some c => decidable_of_iff (c.immortal = true ∨ 0 < c.count) (by simp [Alive, hc])

/-- What an object refers to that is alive. -/
def held (h : Heap ι β) (a : ι) : List ι :=
  if h.Alive a then ((h.cell a).map fun c => refs c.body).getD [] else []

/-- An object refers to another. -/
def Refers (h : Heap ι β) (a x : ι) : Prop := ∃ p, h.object a = some p ∧ x ∈ refs p.1

/-- An object refers to another directly or through others, or is the same. -/
def Reaches (h : Heap ι β) : ι → ι → Prop := Relation.ReflTransGen (h.Refers refs)

end Heap

/-- Nothing from outside keeps the object, or what keeps it. -/
inductive Doomed (h : Heap ι β) (owed : ι → ℕ) : ι → Prop where
  /-- Every reference to the object is one of a doomed object. -/
  | intro (x : ι) (hmortal : ¬h.Immortal x) (hout : owed x = 0)
    (hin : ∀ y, x ∈ h.held refs y → Doomed h owed y) : Doomed h owed x

section

variable {refs} {h g : Heap ι β} {a x y : ι} {c : Cell β}

/-- The count of an object. -/
lemma Heap.count_eq (ha : h.cell a = some c) : h.count a = c.count := by simp [Heap.count, ha]

/-- The count only depends on the object. -/
lemma Heap.count_congr (hx : g.cell x = h.cell x) : g.count x = h.count x := by
  rw [Heap.count, Heap.count, hx]

/-- Being counted only depends on the object. -/
lemma Heap.immortal_congr (hx : g.cell x = h.cell x) : g.Immortal x ↔ h.Immortal x := by
  rw [Heap.Immortal, Heap.Immortal, hx]

/-- Being alive only depends on the object. -/
lemma Heap.alive_congr (hx : g.cell x = h.cell x) : g.Alive x ↔ h.Alive x := by
  rw [Heap.Alive, Heap.Alive, hx]

/-- What an object refers to only depends on the object. -/
lemma Heap.held_congr (hx : g.cell x = h.cell x) : g.held refs x = h.held refs x := by
  simp only [Heap.held, Heap.alive_congr hx, hx]

/-- What an object refers to. -/
lemma Heap.held_eq (ha : h.cell a = some c) (halive : h.Alive a) : h.held refs a = refs c.body := by
  simp [Heap.held, halive, ha]

/-- An object that is not alive refers to nothing. -/
lemma Heap.held_of_not_alive (ha : ¬h.Alive a) : h.held refs a = [] := if_neg ha

/-- Whoever refers to something is alive. -/
lemma Heap.alive_of_mem_held (hx : x ∈ h.held refs a) : h.Alive a := by
  by_contra hdead
  simp [Heap.held_of_not_alive hdead] at hx

/-- Whether an object is alive. -/
lemma Heap.alive_iff (ha : h.cell a = some c) : h.Alive a ↔ c.immortal = true ∨ 0 < c.count := by
  simp [Heap.Alive, ha]

/-- Whether an object is counted. -/
lemma Heap.immortal_iff (ha : h.cell a = some c) : h.Immortal a ↔ c.immortal = true := by
  simp [Heap.Immortal, ha]

/-- An object that is not there is not alive. -/
lemma Heap.not_alive_of_none (ha : h.cell a = none) : ¬h.Alive a := by simp [Heap.Alive, ha]

end

variable [DecidableEq ι]

namespace Heap

/-- An object is written. -/
def put (h : Heap ι β) (a : ι) (c : Cell β) : Heap ι β where
  cell := Function.update h.cell a (some c)
  dom := insert a h.dom
  mem_dom x hx := by
    by_cases hxa : x = a
    · simp [hxa]
    · rw [Function.update_of_ne hxa] at hx
      exact Finset.mem_insert_of_mem (h.mem_dom x hx)

/-- An object is freed. -/
def free (h : Heap ι β) (a : ι) : Heap ι β where
  cell := Function.update h.cell a none
  dom := h.dom
  mem_dom x hx := by
    by_cases hxa : x = a
    · simp [hxa] at hx
    · rw [Function.update_of_ne hxa] at hx
      exact h.mem_dom x hx

/-- The object of a list that is at an address. -/
def lookup (l : List (ι × Cell β)) (a : ι) : Option (Cell β) :=
  (l.find? fun e => e.1 = a).map Prod.snd

/-- A heap with the objects of a list. -/
def ofList (l : List (ι × Cell β)) : Heap ι β where
  cell := lookup l
  dom := (l.map Prod.fst).toFinset
  mem_dom a ha := by
    rw [lookup, Option.isSome_map, List.find?_isSome] at ha
    obtain ⟨e, he, hea⟩ := ha
    rw [List.mem_toFinset, List.mem_map]
    exact ⟨e, he, of_decide_eq_true hea⟩

/-- The references to an object from objects that are alive. -/
def inDegree (h : Heap ι β) (x : ι) : ℕ := ∑ a ∈ h.dom, (h.held refs a).count x

end Heap

/-- A reference to the object is released, with nested releases up to a depth. There is no result
when an object is released that is not there. -/
def release : ℕ → Heap ι β → ι → Option (Heap ι β)
  | 0, _, _ => none
  | depth + 1, h, a =>
    match h.cell a with
    | none => none
    | some c =>
      if c.immortal then some h
      else
        let h := h.put a { c with count := c.count - 1 }
        if c.count - 1 = 0 then ((refs c.body).foldlM (release depth) h).map fun h => h.free a
        else some h

/-- A reference to the object is taken. -/
def retain (h : Heap ι β) (a : ι) : Option (Heap ι β) :=
  match h.cell a with
  | none => none
  | some c => if c.immortal then some h else some (h.put a { c with count := c.count + 1 })

/-- What an object consists of is changed. -/
def modify (h : Heap ι β) (a : ι) (f : β → β) : Option (Heap ι β) :=
  match h.cell a with
  | none => none
  | some c => some (h.put a { c with body := f c.body })

/-- A reference in `d` to `old` is replaced by one to `new`: the old one is released before the new
one is taken. -/
def replace (depth : ℕ) (h : Heap ι β) (d old new : ι) (f : β → β) : Option (Heap ι β) :=
  (release refs depth h old).bind fun h => (retain h new).bind fun h => modify h d f

/-- The counts are right, when `owed` are the references from outside and one more is about to be
released for each member of `pending`. -/
def Balanced (h : Heap ι β) (owed : ι → ℕ) (pending : List ι) : Prop :=
  ∀ x, ¬h.Immortal x → h.count x = h.inDegree refs x + owed x + pending.count x

section

variable {refs} {h h' g : Heap ι β} {a b d x y : ι} {c c' : Cell β} {owed : ι → ℕ}
  {pending : List ι} {n m : ℕ}

/-! ## What an object refers to -/

omit [DecidableEq ι] in
/-- What is reached is so in another heap that has the same objects there. -/
lemma Heap.reaches_frame (hsame : ∀ x, h.Reaches refs a x → g.object x = h.object x) :
    g.Reaches refs a x ↔ h.Reaches refs a x := by
  constructor
  · intro hx
    induction hx with
    | refl => exact Relation.ReflTransGen.refl
    | tail _ hstep ih =>
      obtain ⟨p, hp, hmem⟩ := hstep
      exact ih.tail ⟨p, (hsame _ ih) ▸ hp, hmem⟩
  · intro hx
    induction hx with
    | refl => exact Relation.ReflTransGen.refl
    | tail hreach hstep ih =>
      obtain ⟨p, hp, hmem⟩ := hstep
      exact ih.tail ⟨p, (hsame _ hreach).trans hp, hmem⟩

/-! ## Writing and freeing -/

/-- The object that was written. -/
@[simp] lemma Heap.put_same : (h.put a c).cell a = some c := Function.update_self _ _ _

/-- The objects that were not written. -/
lemma Heap.put_of_ne (hx : x ≠ a) : (h.put a c).cell x = h.cell x := Function.update_of_ne hx _ _

/-- The object that was freed. -/
@[simp] lemma Heap.free_same : (h.free a).cell a = none := Function.update_self _ _ _

/-- The objects that were not freed. -/
lemma Heap.free_of_ne (hx : x ≠ a) : (h.free a).cell x = h.cell x := Function.update_of_ne hx _ _

/-- Writing an object that is there uses no new address. -/
lemma Heap.put_dom (ha : h.cell a = some c') : (h.put a c).dom = h.dom :=
  Finset.insert_eq_self.mpr (h.mem_dom a (by simp [ha]))

variable (refs x) in
/-- The references to an object, when the references of one object change. -/
lemma Heap.inDegree_change (hdom : g.dom = h.dom)
    (hother : ∀ y, y ≠ a → g.held refs y = h.held refs y) (ha : a ∈ h.dom) :
    g.inDegree refs x + (h.held refs a).count x = h.inDegree refs x + (g.held refs a).count x := by
  have hsum : ∀ k : Heap ι β, k.dom = h.dom → k.inDegree refs x =
      (k.held refs a).count x + ∑ y ∈ h.dom.erase a, (k.held refs y).count x := by
    intro k hk
    rw [Heap.inDegree, hk]
    exact (Finset.add_sum_erase h.dom (fun y => (k.held refs y).count x) ha).symm
  have hrest : ∑ y ∈ h.dom.erase a, (g.held refs y).count x =
      ∑ y ∈ h.dom.erase a, (h.held refs y).count x := by
    refine Finset.sum_congr rfl fun y hy => ?_
    rw [hother y (Finset.ne_of_mem_erase hy)]
  rw [hsum g hdom, hsum h rfl, hrest]
  omega

variable (refs x) in
/-- The references to an object, when no references change. -/
lemma Heap.inDegree_congr (hdom : g.dom = h.dom) (hheld : ∀ y, g.held refs y = h.held refs y) :
    g.inDegree refs x = h.inDegree refs x := by
  rw [Heap.inDegree, Heap.inDegree, hdom]
  exact Finset.sum_congr rfl fun y _ => by rw [hheld y]

/-- Whoever is referred to has a reference. -/
lemma Heap.inDegree_pos (hx : x ∈ h.held refs y) : 0 < h.inDegree refs x := by
  obtain ⟨c, hc, -⟩ := Heap.alive_of_mem_held hx
  have hmem : y ∈ h.dom := h.mem_dom y (by simp [hc])
  refine Nat.lt_of_lt_of_le (List.count_pos_iff.mpr hx) ?_
  exact Finset.single_le_sum (f := fun a => (h.held refs a).count x) (fun _ _ => Nat.zero_le _) hmem

/-- Whoever has no reference is not referred to. -/
lemma Heap.inDegree_eq_zero (hx : ∀ y, x ∉ h.held refs y) : h.inDegree refs x = 0 :=
  Finset.sum_eq_zero fun y _ => List.count_eq_zero.mpr (hx y)

/-! ## What every release leaves -/

/-- A release changes nothing but counts, revives nothing, and frees what it gives up. -/
structure After (h h' : Heap ι β) : Prop where
  /-- The objects that are left are the same but for their counts. -/
  body : ∀ x c', h'.cell x = some c' →
    ∃ c, h.cell x = some c ∧ c.body = c'.body ∧ c.immortal = c'.immortal
  /-- Nothing is revived. -/
  alive : ∀ x, h'.Alive x → h.Alive x
  /-- What is given up is freed. -/
  settled : ∀ x, h.Alive x → h'.Alive x ∨ h'.cell x = none
  /-- No new address is used. -/
  dom : h'.dom = h.dom

omit [DecidableEq ι] in
/-- Nothing happens. -/
lemma After.refl : After h h := ⟨fun _ c hc => ⟨c, hc, rfl, rfl⟩, fun _ ha => ha, fun _ => Or.inl, rfl⟩

omit [DecidableEq ι] in
/-- One release after another. -/
lemma After.trans (hg : After h g) (hh : After g h') : After h h' where
  body x c' hc' := by
    obtain ⟨c₁, hc₁, hbody₁, himm₁⟩ := hh.body x c' hc'
    obtain ⟨c, hc, hbody, himm⟩ := hg.body x c₁ hc₁
    exact ⟨c, hc, hbody.trans hbody₁, himm.trans himm₁⟩
  alive x hx := hg.alive x (hh.alive x hx)
  settled x hx := by
    rcases hg.settled x hx with hx | hx
    · exact hh.settled x hx
    · refine Or.inr ?_
      by_contra hne
      obtain ⟨c', hc'⟩ := Option.ne_none_iff_exists'.mp hne
      obtain ⟨c, hc, -⟩ := hh.body x c' hc'
      rw [hx] at hc
      cases hc
  dom := hh.dom.trans hg.dom

/-- Releasing one after the other. -/
private lemma foldlM_after (hrel : ∀ h h' a, release refs n h a = some h' → After h h')
    (l : List ι) (hl : l.foldlM (release refs n) h = some h') : After h h' := by
  induction l generalizing h with
  | nil =>
    obtain rfl := Option.some_inj.mp hl
    exact After.refl
  | cons a l ih =>
    rw [List.foldlM_cons] at hl
    obtain ⟨g, hg, hrest⟩ := Option.bind_eq_some_iff.mp hl
    exact (hrel h g a hg).trans (ih hrest)

/-- An object whose count is lowered, but not to zero. -/
private lemma after_lower (hc : h.cell a = some c) (hmortal : c.immortal = false)
    (hzero : c.count - 1 ≠ 0) : After h (h.put a { c with count := c.count - 1 }) where
  body x c' hc' := by
    by_cases hx : x = a
    · subst hx
      rw [Heap.put_same] at hc'
      obtain rfl := Option.some_inj.mp hc'
      exact ⟨c, hc, rfl, rfl⟩
    · rw [Heap.put_of_ne hx] at hc'
      exact ⟨c', hc', rfl, rfl⟩
  alive x hx := by
    by_cases hxa : x = a
    · subst hxa
      rw [Heap.alive_iff Heap.put_same] at hx
      rw [Heap.alive_iff hc]
      simp only [hmortal, Bool.false_eq_true, false_or] at hx ⊢
      omega
    · rwa [Heap.alive_congr (Heap.put_of_ne hxa)] at hx
  settled x hx := by
    refine Or.inl ?_
    by_cases hxa : x = a
    · subst hxa
      rw [Heap.alive_iff hc] at hx
      rw [Heap.alive_iff Heap.put_same]
      simp only [hmortal, Bool.false_eq_true, false_or] at hx ⊢
      omega
    · rwa [Heap.alive_congr (Heap.put_of_ne hxa)]
  dom := Heap.put_dom hc

/-- An object that is given up. -/
private lemma after_giveUp (hc : h.cell a = some c)
    (hrest : After (h.put a { c with count := c.count - 1 }) g) : After h (g.free a) where
  body x c' hc' := by
    by_cases hx : x = a
    · subst hx
      rw [Heap.free_same] at hc'
      cases hc'
    · rw [Heap.free_of_ne hx] at hc'
      obtain ⟨c₁, hc₁, hbody⟩ := hrest.body x c' hc'
      rw [Heap.put_of_ne hx] at hc₁
      exact ⟨c₁, hc₁, hbody⟩
  alive x hx := by
    by_cases hxa : x = a
    · subst hxa
      exact absurd hx (Heap.not_alive_of_none Heap.free_same)
    · rw [Heap.alive_congr (Heap.free_of_ne hxa)] at hx
      have hx' := hrest.alive x hx
      rwa [Heap.alive_congr (Heap.put_of_ne hxa)] at hx'
  settled x hx := by
    by_cases hxa : x = a
    · subst hxa
      exact Or.inr Heap.free_same
    · rw [Heap.alive_congr (Heap.free_of_ne hxa), Heap.free_of_ne hxa]
      refine hrest.settled x ?_
      rwa [Heap.alive_congr (Heap.put_of_ne hxa)]
  dom := hrest.dom.trans (Heap.put_dom hc)

/-- **What every release leaves.**

**Proof sketch.** By induction on the depth: the object that is given up is freed behind all the
releases it makes. -/
theorem release_after (hrel : release refs n h a = some h') : After h h' := by
  induction n generalizing h h' a with
  | zero => cases hrel
  | succ n ih =>
    rw [release] at hrel
    split at hrel
    · cases hrel
    · next c hc =>
      split_ifs at hrel with himm hzero
      · obtain rfl := Option.some_inj.mp hrel
        exact After.refl
      · obtain ⟨g, hg, rfl⟩ := Option.map_eq_some_iff.mp hrel
        exact after_giveUp hc (foldlM_after (fun _ _ _ => ih) _ hg)
      · obtain rfl := Option.some_inj.mp hrel
        exact after_lower hc (by simpa using himm) hzero

/-! ## More fuel -/

/-- **More depth changes nothing.** -/
theorem release_mono (hrel : release refs n h a = some h') (hnm : n ≤ m) :
    release refs m h a = some h' := by
  induction n generalizing m h h' a with
  | zero => cases hrel
  | succ n ih =>
    obtain ⟨m, rfl⟩ : ∃ k, m = k + 1 := ⟨m - 1, by omega⟩
    have hfold : ∀ (l : List ι) (g g' : Heap ι β), l.foldlM (release refs n) g = some g' →
        l.foldlM (release refs m) g = some g' := by
      intro l
      induction l with
      | nil => exact fun g g' hl => hl
      | cons b l ihl =>
        intro g g' hl
        rw [List.foldlM_cons] at hl ⊢
        obtain ⟨g₁, hg₁, hrest⟩ := Option.bind_eq_some_iff.mp hl
        refine Option.bind_eq_some_iff.mpr ⟨g₁, ih hg₁ (by omega), ihl g₁ g' hrest⟩
    rw [release] at hrel ⊢
    split at hrel
    · cases hrel
    · next c hc =>
      split_ifs at hrel ⊢ with himm hzero
      · exact hrel
      · obtain ⟨g, hg, hfree⟩ := Option.map_eq_some_iff.mp hrel
        exact Option.map_eq_some_iff.mpr ⟨g, hfold _ _ g hg, hfree⟩
      · exact hrel

/-- The depth does not matter for the result. -/
lemma release_congr (hn : release refs n h a = some g) (hm : release refs m h a = some h') :
    g = h' := by
  have hn' := release_mono hn (Nat.le_max_left n m)
  have hm' := release_mono hm (Nat.le_max_right n m)
  exact Option.some_inj.mp (hn'.symm.trans hm')

/-! ## What an object refers to that survives -/

/-- Two heaps are the same but for what the object `d` consists of. -/
def SameBut (d : ι) (h g : Heap ι β) : Prop :=
  (∀ x, x ≠ d → g.cell x = h.cell x) ∧
    (g.cell d).map (fun c => (c.count, c.immortal)) =
      (h.cell d).map fun c => (c.count, c.immortal)

omit [DecidableEq ι] in
/-- It is the same either way. -/
lemma SameBut.symm (hs : SameBut d h g) : SameBut d g h :=
  ⟨fun x hx => (hs.1 x hx).symm, hs.2.symm⟩

omit [DecidableEq ι] in
/-- Both have the object or neither, with the same count. -/
lemma SameBut.cell (hs : SameBut d h g) (hc : h.cell d = some c) :
    ∃ c', g.cell d = some c' ∧ c'.count = c.count ∧ c'.immortal = c.immortal := by
  have hmap := hs.2
  rw [hc] at hmap
  obtain ⟨c', hc', hpair⟩ := Option.map_eq_some_iff.mp hmap
  exact ⟨c', hc', congrArg Prod.fst hpair, congrArg Prod.snd hpair⟩

omit [DecidableEq ι] in
/-- The same objects are alive. -/
lemma SameBut.alive (hs : SameBut d h g) (x : ι) : g.Alive x ↔ h.Alive x := by
  by_cases hx : x = d
  · subst hx
    cases hc : h.cell x with
    | none =>
      have hnone : g.cell x = none := by simpa [hc] using hs.2
      simp [Heap.Alive, hc, hnone]
    | some c =>
      obtain ⟨c', hc', hcount, himm⟩ := hs.cell hc
      rw [Heap.alive_iff hc, Heap.alive_iff hc', hcount, himm]
  · exact Heap.alive_congr (hs.1 x hx)

/-- Both heaps are written at another address. -/
private lemma SameBut.put (hs : SameBut d h g) (ha : a ≠ d) : SameBut d (h.put a c) (g.put a c) := by
  refine ⟨fun x hx => ?_, ?_⟩
  · by_cases hxa : x = a
    · rw [hxa, Heap.put_same, Heap.put_same]
    · rw [Heap.put_of_ne hxa, Heap.put_of_ne hxa, hs.1 x hx]
  · rw [Heap.put_of_ne (Ne.symm ha), Heap.put_of_ne (Ne.symm ha)]
    exact hs.2

/-- Something is freed at another address in both heaps. -/
private lemma SameBut.free (hs : SameBut d h g) (ha : a ≠ d) : SameBut d (h.free a) (g.free a) := by
  refine ⟨fun x hx => ?_, ?_⟩
  · by_cases hxa : x = a
    · rw [hxa, Heap.free_same, Heap.free_same]
    · rw [Heap.free_of_ne hxa, Heap.free_of_ne hxa, hs.1 x hx]
  · rw [Heap.free_of_ne (Ne.symm ha), Heap.free_of_ne (Ne.symm ha)]
    exact hs.2

/-- **It does not matter what an object refers to that survives** the release.

**Proof sketch.** By induction on the depth. The references of `d` would only be looked at where it
is given up, and then it does not survive. -/
theorem release_sameBut (hs : SameBut d h g) (hrel : release refs n h a = some h')
    (hd : h'.Alive d) : ∃ g', release refs n g a = some g' ∧ SameBut d h' g' := by
  induction n generalizing h g h' a with
  | zero => cases hrel
  | succ n ih =>
    have hfold : ∀ (l : List ι) (h g h' : Heap ι β), SameBut d h g →
        l.foldlM (release refs n) h = some h' → h'.Alive d →
        ∃ g', l.foldlM (release refs n) g = some g' ∧ SameBut d h' g' := by
      intro l
      induction l with
      | nil =>
        intro h g h' hs hl _
        obtain rfl := Option.some_inj.mp hl
        exact ⟨g, rfl, hs⟩
      | cons b l ihl =>
        intro h g h' hs hl hd
        rw [List.foldlM_cons] at hl
        obtain ⟨h₁, hh₁, hrest⟩ := Option.bind_eq_some_iff.mp hl
        have hd₁ : h₁.Alive d :=
          (foldlM_after (fun _ _ _ => release_after) l hrest).alive d hd
        obtain ⟨g₁, hg₁, hs₁⟩ := ih hs hh₁ hd₁
        obtain ⟨g', hg', hs'⟩ := ihl h₁ g₁ h' hs₁ hrest hd
        exact ⟨g', by rw [List.foldlM_cons]; exact Option.bind_eq_some_iff.mpr ⟨g₁, hg₁, hg'⟩, hs'⟩
    rw [release] at hrel
    split at hrel
    · cases hrel
    · next c hc =>
      by_cases had : a = d
      · subst had
        obtain ⟨c', hc', hcount, himm'⟩ := hs.cell hc
        rw [release, hc']
        simp only [hcount, himm']
        split_ifs at hrel ⊢ with himm hzero
        · obtain rfl := Option.some_inj.mp hrel
          exact ⟨g, rfl, hs⟩
        · obtain ⟨k, -, rfl⟩ := Option.map_eq_some_iff.mp hrel
          exact absurd hd (Heap.not_alive_of_none Heap.free_same)
        · obtain rfl := Option.some_inj.mp hrel
          refine ⟨_, rfl, fun x hx => ?_, ?_⟩
          · rw [Heap.put_of_ne hx, Heap.put_of_ne hx, hs.1 x hx]
          · simp
      · rw [release, hs.1 a had, hc]
        dsimp only
        split_ifs at hrel ⊢ with himm hzero
        · obtain rfl := Option.some_inj.mp hrel
          exact ⟨g, rfl, hs⟩
        · obtain ⟨k, hk, rfl⟩ := Option.map_eq_some_iff.mp hrel
          rw [Heap.alive_congr (Heap.free_of_ne (Ne.symm had))] at hd
          obtain ⟨g₁, hg₁, hs₁⟩ := hfold _ _ _ k (hs.put had) hk hd
          exact ⟨g₁.free a, Option.map_eq_some_iff.mpr ⟨g₁, hg₁, rfl⟩, hs₁.free had⟩
        · obtain rfl := Option.some_inj.mp hrel
          exact ⟨_, rfl, hs.put had⟩

/-! ## Objects whose counts are right -/

/-- How many objects are alive. -/
def Heap.population (h : Heap ι β) : ℕ := (h.dom.filter fun a => h.Alive a).card

omit [DecidableEq ι] in
/-- A release lets fewer live. -/
lemma After.population_le (ha : After h h') : h'.population ≤ h.population := by
  rw [Heap.population, Heap.population, ha.dom]
  refine Finset.card_le_card fun x hx => ?_
  rw [Finset.mem_filter] at hx ⊢
  exact ⟨hx.1, ha.alive x hx.2⟩

/-- The count of an object is lowered, and it is alive still. -/
private lemma balanced_lower (hbal : Balanced refs h owed (a :: pending)) (hc : h.cell a = some c)
    (hmortal : c.immortal = false) (hzero : c.count - 1 ≠ 0) :
    (∀ x, (h.put a { c with count := c.count - 1 }).held refs x = h.held refs x) ∧
      Balanced refs (h.put a { c with count := c.count - 1 }) owed pending := by
  have hcount := hbal a (by simp [Heap.immortal_iff hc, hmortal])
  rw [Heap.count_eq hc, List.count_cons_self] at hcount
  have hheld : ∀ x, (h.put a { c with count := c.count - 1 }).held refs x = h.held refs x := by
    intro x
    by_cases hx : x = a
    · subst hx
      have halive : h.Alive x := (Heap.alive_iff hc).mpr (Or.inr (by omega))
      have halive' : (h.put x { c with count := c.count - 1 }).Alive x :=
        (Heap.alive_iff Heap.put_same).mpr (Or.inr (by dsimp only; omega))
      rw [Heap.held_eq Heap.put_same halive', Heap.held_eq hc halive]
    · exact Heap.held_congr (Heap.put_of_ne hx)
  refine ⟨hheld, fun x hx => ?_⟩
  rw [Heap.inDegree_congr refs _ (Heap.put_dom hc) hheld]
  by_cases hxa : x = a
  · subst hxa
    rw [Heap.count_eq Heap.put_same]
    dsimp only
    omega
  · rw [Heap.immortal_congr (Heap.put_of_ne hxa)] at hx
    have hother := hbal x hx
    rw [List.count_cons_of_ne (Ne.symm hxa)] at hother
    rw [Heap.count_congr (Heap.put_of_ne hxa)]
    exact hother

/-- The count of an object is lowered to zero: its references are left to be released. -/
private lemma balanced_giveUp (hbal : Balanced refs h owed (a :: pending)) (hc : h.cell a = some c)
    (hmortal : c.immortal = false) (hzero : c.count - 1 = 0) :
    (∀ x, a ∉ h.held refs x) ∧ owed a = 0 ∧
      Balanced refs (h.put a { c with count := c.count - 1 }) owed (refs c.body ++ pending) := by
  have hcount := hbal a (by simp [Heap.immortal_iff hc, hmortal])
  rw [Heap.count_eq hc, List.count_cons_self] at hcount
  have halive : h.Alive a := (Heap.alive_iff hc).mpr (Or.inr (by omega))
  have hdead : ¬(h.put a { c with count := c.count - 1 }).Alive a := by
    rw [Heap.alive_iff Heap.put_same]
    simp only [hmortal, Bool.false_eq_true, false_or]
    omega
  have hnot : ∀ x, a ∉ h.held refs x := by
    intro x hx
    have hpos := Heap.inDegree_pos hx
    omega
  have hself : (refs c.body).count a = 0 := by
    have h0 := hnot a
    rw [Heap.held_eq hc halive] at h0
    exact List.count_eq_zero.mpr h0
  refine ⟨hnot, by omega, fun x hx => ?_⟩
  have hdeg := Heap.inDegree_change refs x
    (Heap.put_dom (c := { c with count := c.count - 1 }) hc)
    (fun y hy => Heap.held_congr (Heap.put_of_ne hy)) (h.mem_dom a (by simp [hc]))
  rw [Heap.held_of_not_alive hdead, Heap.held_eq hc halive, List.count_nil] at hdeg
  rw [List.count_append]
  by_cases hxa : x = a
  · subst hxa
    rw [Heap.count_eq Heap.put_same]
    dsimp only
    omega
  · rw [Heap.immortal_congr (Heap.put_of_ne hxa)] at hx
    have hother := hbal x hx
    rw [List.count_cons_of_ne (Ne.symm hxa)] at hother
    rw [Heap.count_congr (Heap.put_of_ne hxa)]
    omega

/-- What was given up is freed. -/
private lemma balanced_free (hbal : Balanced refs h owed pending) (hdead : ¬h.Alive a)
    (hcount : h.count a = 0) (hmortal : ¬h.Immortal a) :
    Balanced refs (h.free a) owed pending := by
  have hheld : ∀ x, (h.free a).held refs x = h.held refs x := by
    intro x
    by_cases hx : x = a
    · subst hx
      rw [Heap.held_of_not_alive (Heap.not_alive_of_none Heap.free_same),
        Heap.held_of_not_alive hdead]
    · exact Heap.held_congr (Heap.free_of_ne hx)
  intro x hx
  have hdeg : (h.free a).inDegree refs x = h.inDegree refs x := Heap.inDegree_congr refs _ rfl hheld
  rw [hdeg]
  by_cases hxa : x = a
  · subst hxa
    have hnone : (h.free x).count x = 0 := by simp [Heap.count]
    rw [hnone, ← hcount]
    exact hbal x hmortal
  · rw [Heap.immortal_congr (Heap.free_of_ne hxa)] at hx
    rw [Heap.count_congr (Heap.free_of_ne hxa)]
    exact hbal x hx

variable (refs) in
/-- What the heap `h₀` has become, with some releases still to come: the counts are right, what is
alive has its references still, and what is not is among the objects of `D`. -/
structure Stage (h₀ : Heap ι β) (D : ι → Prop) (owed : ι → ℕ) (pending : List ι) (h : Heap ι β) :
    Prop where
  /-- The counts are right. -/
  balanced : Balanced refs h owed pending
  /-- Who is alive has its references still. -/
  kept : ∀ x, h.Alive x → h.held refs x = h₀.held refs x
  /-- Who is not is in `D`. -/
  gone : ∀ x, h₀.Alive x → h.Alive x ∨ D x
  /-- The same objects are counted. -/
  immortal : ∀ x, h.Immortal x ↔ h₀.Immortal x

variable {h₀ : Heap ι β} {D : ι → Prop}

/-- An object is released that is not counted. -/
private lemma Stage.skip (hst : Stage refs h₀ D owed (a :: pending) h)
    (ha : h.Immortal a) : Stage refs h₀ D owed pending h := by
  refine ⟨fun x hx => ?_, hst.kept, hst.gone, hst.immortal⟩
  have hxa : a ≠ x := by
    rintro rfl
    exact hx ha
  have hother := hst.balanced x hx
  rwa [List.count_cons_of_ne hxa] at hother

/-- An object is released that is there. -/
private lemma Stage.alive (hst : Stage refs h₀ D owed (a :: pending) h) : h.Alive a := by
  by_cases ha : h.Immortal a
  · obtain ⟨c, hc, himm⟩ := ha
    exact ⟨c, hc, Or.inl himm⟩
  · have hcount := hst.balanced a ha
    rw [List.count_cons_self] at hcount
    cases hc : h.cell a with
    | none =>
      simp only [Heap.count, hc, Option.map_none, Option.getD_none] at hcount
      omega
    | some c =>
      rw [Heap.count_eq hc] at hcount
      exact ⟨c, hc, Or.inr (by omega)⟩

/-- The objects that are counted stay so when a count changes. -/
private lemma immortal_put {k : ℤ} (hc : h.cell a = some c) (x : ι) :
    (h.put a { c with count := k }).Immortal x ↔ h.Immortal x := by
  by_cases hx : x = a
  · subst hx
    rw [Heap.immortal_iff Heap.put_same, Heap.immortal_iff hc]
  · exact Heap.immortal_congr (Heap.put_of_ne hx)

/-- The count is lowered, but not to zero. -/
private lemma Stage.lower (hst : Stage refs h₀ D owed (a :: pending) h)
    (hc : h.cell a = some c) (hmortal : c.immortal = false) (hzero : c.count - 1 ≠ 0) :
    Stage refs h₀ D owed pending (h.put a { c with count := c.count - 1 }) := by
  obtain ⟨hheld, hbal⟩ := balanced_lower hst.balanced hc hmortal hzero
  have hafter := after_lower hc hmortal hzero
  refine ⟨hbal, fun x hx => ?_, fun x hx => ?_, fun x => ?_⟩
  · rw [hheld x]
    exact hst.kept x (hafter.alive x hx)
  · refine (hst.gone x hx).imp_left fun hx' => (hafter.settled x hx').resolve_right ?_
    obtain ⟨c', hc', -⟩ := hx'
    by_cases hxa : x = a
    · simp [hxa]
    · simp [Heap.put_of_ne hxa, hc']
  · rw [immortal_put hc]
    exact hst.immortal x

/-- The count is lowered to zero, and the references of the object are released next. -/
private lemma Stage.giveUp (hst : Stage refs h₀ D owed (a :: pending) h)
    (hD : ∀ x, ¬h₀.Immortal x → owed x = 0 → (∀ y, x ∈ h₀.held refs y → D y) → D x)
    (hc : h.cell a = some c) (hmortal : c.immortal = false) (hzero : c.count - 1 = 0) :
    D a ∧ ¬(h.put a { c with count := c.count - 1 }).Alive a ∧
      Stage refs h₀ D owed (refs c.body ++ pending)
        (h.put a { c with count := c.count - 1 }) := by
  obtain ⟨hnot, howed, hbal⟩ := balanced_giveUp hst.balanced hc hmortal hzero
  have hdead : ¬(h.put a { c with count := c.count - 1 }).Alive a := by
    rw [Heap.alive_iff Heap.put_same]
    simp only [hmortal, Bool.false_eq_true, false_or]
    omega
  have hDa : D a := by
    refine hD a (by simp [← hst.immortal a, Heap.immortal_iff hc, hmortal]) howed fun y hy => ?_
    refine (hst.gone y (Heap.alive_of_mem_held hy)).resolve_left fun hy' => ?_
    exact hnot y (hst.kept y hy' ▸ hy)
  refine ⟨hDa, hdead, hbal, fun x hx => ?_, fun x hx => ?_, fun x => ?_⟩
  · have hxa : x ≠ a := by
      rintro rfl
      exact hdead hx
    rw [Heap.held_congr (Heap.put_of_ne hxa)]
    exact hst.kept x ((Heap.alive_congr (Heap.put_of_ne hxa)).mp hx)
  · by_cases hxa : x = a
    · exact Or.inr (hxa ▸ hDa)
    · rw [Heap.alive_congr (Heap.put_of_ne hxa)]
      exact hst.gone x hx
  · rw [immortal_put hc]
    exact hst.immortal x

/-- An object that was given up is freed. -/
private lemma Stage.free (hst : Stage refs h₀ D owed pending h) (hDa : D a)
    (hc : h.cell a = some c) (hmortal : c.immortal = false) (hzero : c.count = 0) :
    Stage refs h₀ D owed pending (h.free a) := by
  have hdead : ¬h.Alive a := by simp [Heap.alive_iff hc, hmortal, hzero]
  have hcounted : ¬h.Immortal a := by simp [Heap.immortal_iff hc, hmortal]
  have hne : ∀ x, (h.free a).Alive x → x ≠ a := by
    rintro x hx rfl
    exact Heap.not_alive_of_none Heap.free_same hx
  refine ⟨balanced_free hst.balanced hdead (by rw [Heap.count_eq hc, hzero]) hcounted,
    fun x hx => ?_, fun x hx => ?_, fun x => ?_⟩
  · have hxa := hne x hx
    rw [Heap.held_congr (Heap.free_of_ne hxa)]
    exact hst.kept x ((Heap.alive_congr (Heap.free_of_ne hxa)).mp hx)
  · by_cases hxa : x = a
    · exact Or.inr (hxa ▸ hDa)
    · rw [Heap.alive_congr (Heap.free_of_ne hxa)]
      exact hst.gone x hx
  · rw [← hst.immortal x]
    by_cases hxa : x = a
    · subst hxa
      exact iff_of_false (by simp [Heap.Immortal]) hcounted
    · exact Heap.immortal_congr (Heap.free_of_ne hxa)

/-- One object is alive no more. -/
private lemma population_put (hc : h.cell a = some c) (halive : h.Alive a) {k : ℤ}
    (hdead : ¬(h.put a { c with count := k }).Alive a) :
    (h.put a { c with count := k }).population < h.population := by
  rw [Heap.population, Heap.population, Heap.put_dom hc]
  refine Finset.card_lt_card ⟨fun x hx => ?_, fun hsub => ?_⟩
  · rw [Finset.mem_filter] at hx ⊢
    refine ⟨hx.1, ?_⟩
    by_cases hxa : x = a
    · exact hxa ▸ halive
    · exact (Heap.alive_congr (Heap.put_of_ne hxa)).mp hx.2
  · have hmem : a ∈ h.dom.filter fun x => h.Alive x :=
      Finset.mem_filter.mpr ⟨h.mem_dom a (by simp [hc]), halive⟩
    exact hdead (Finset.mem_filter.mp (hsub hmem)).2

variable (refs) in
/-- What a release does to a stage: there is one pending release less, and what was not alive is
left as it is. -/
def Proceeds (h₀ : Heap ι β) (D : ι → Prop) (owed : ι → ℕ) (pending : List ι) (h : Heap ι β)
    (r : Option (Heap ι β)) : Prop :=
  ∃ h', r = some h' ∧ Stage refs h₀ D owed pending h' ∧
    ∀ x, ¬h.Alive x → h'.cell x = h.cell x

/-- Several releases proceed when each does. -/
private lemma proceeds_foldlM
    (hrel : ∀ (h : Heap ι β) (a : ι) (pending : List ι),
      Stage refs h₀ D owed (a :: pending) h → h.population < n →
      Proceeds refs h₀ D owed pending h (release refs n h a)) (l : List ι)
    (hst : Stage refs h₀ D owed (l ++ pending) h) (hn : h.population < n) :
    Proceeds refs h₀ D owed pending h (l.foldlM (release refs n) h) := by
  induction l generalizing h with
  | nil => exact ⟨h, rfl, hst, fun _ _ => rfl⟩
  | cons b l ih =>
    obtain ⟨h₁, hh₁, hst₁, hsame₁⟩ := hrel h b (l ++ pending) hst hn
    have hafter := release_after hh₁
    obtain ⟨h', hrest, hst', hsame'⟩ := ih hst₁ (Nat.lt_of_le_of_lt hafter.population_le hn)
    refine ⟨h', ?_, hst', fun x hx => ?_⟩
    · rw [List.foldlM_cons]
      exact Option.bind_eq_some_iff.mpr ⟨h₁, hh₁, hrest⟩
    · rw [hsame' x fun hx' => hx (hafter.alive x hx'), hsame₁ x hx]

/-- **A release comes to an end where the counts are right**, and they are right again. It gives up
an object only when nothing from `h₀` outside `D` refers to it.

**Proof sketch.** By induction on the depth, of which there is enough as long as it exceeds the
number of objects that are alive: an object that is given up is not alive while its references are
released, and these are pending until they are. -/
theorem release_proceeds
    (hD : ∀ x, ¬h₀.Immortal x → owed x = 0 → (∀ y, x ∈ h₀.held refs y → D y) → D x)
    (hst : Stage refs h₀ D owed (a :: pending) h) (hn : h.population < n) :
    Proceeds refs h₀ D owed pending h (release refs n h a) := by
  induction n generalizing h a pending with
  | zero => omega
  | succ n ih =>
    have halive := hst.alive
    obtain ⟨c, hc, -⟩ := id halive
    rw [release, hc]
    dsimp only
    by_cases himm : c.immortal = true
    · rw [if_pos himm]
      exact ⟨h, rfl, hst.skip ((Heap.immortal_iff hc).mpr himm), fun _ _ => rfl⟩
    have hmortal : c.immortal = false := by simpa using himm
    rw [if_neg himm]
    have hother : ∀ x, ¬h.Alive x →
        x ≠ a ∧ (h.put a { c with count := c.count - 1 }).cell x = h.cell x := by
      intro x hx
      have hxa : x ≠ a := by
        rintro rfl
        exact hx halive
      exact ⟨hxa, Heap.put_of_ne hxa⟩
    by_cases hzero : c.count - 1 = 0
    · rw [if_pos hzero]
      obtain ⟨hDa, hdead, hst₁⟩ := hst.giveUp hD hc hmortal hzero
      have hfewer := population_put hc halive hdead
      obtain ⟨h₂, hrel, hst₂, hsame₂⟩ :=
        proceeds_foldlM (fun _ _ _ => ih) (refs c.body) hst₁ (by omega)
      have hc₂ : h₂.cell a = some { c with count := c.count - 1 } := by
        rw [hsame₂ a hdead, Heap.put_same]
      refine ⟨h₂.free a, Option.map_eq_some_iff.mpr ⟨h₂, hrel, rfl⟩,
        hst₂.free hDa hc₂ hmortal hzero, fun x hx => ?_⟩
      obtain ⟨hxa, hcell⟩ := hother x hx
      rw [Heap.free_of_ne hxa, hsame₂ x, hcell]
      rwa [Heap.alive_congr hcell]
    · rw [if_neg hzero]
      exact ⟨_, rfl, hst.lower hc hmortal hzero, fun x hx => (hother x hx).2⟩

omit [DecidableEq ι] in
/-- Who is doomed is so by all that refers to it. -/
private lemma doomed_closed (x : ι) (hmortal : ¬h.Immortal x) (hout : owed x = 0)
    (hin : ∀ y, x ∈ h.held refs y → Doomed refs h owed y) : Doomed refs h owed x :=
  Doomed.intro x hmortal hout hin

/-- Who is doomed is not alive when nothing is pending. -/
private lemma Stage.not_alive_of_doomed
    (hst : Stage refs h (Doomed refs h owed) owed [] g) (hx : Doomed refs h owed x) :
    ¬g.Alive x := by
  induction hx with
  | intro x hmortal hout hin ih =>
    have hdeg : g.inDegree refs x = 0 := by
      refine Heap.inDegree_eq_zero fun y hy => ?_
      have hy' := Heap.alive_of_mem_held hy
      exact ih y (hst.kept y hy' ▸ hy) hy'
    have hcounted : ¬g.Immortal x := fun hg => hmortal ((hst.immortal x).mp hg)
    have hcount := hst.balanced x hcounted
    rw [hdeg, hout, List.count_nil] at hcount
    rintro ⟨c, hc, himm | hpos⟩
    · exact hcounted ((Heap.immortal_iff hc).mpr himm)
    · rw [Heap.count_eq hc] at hcount
      omega

/-- **What a release does** to objects whose counts are right: it comes to an end, the counts are
right again, and exactly the objects are given up that nothing from outside keeps. -/
theorem release_exact (hbal : Balanced refs h owed [a]) :
    ∃ n h', release refs n h a = some h' ∧ Balanced refs h' owed [] ∧ After h h' ∧
      ∀ x, h'.Alive x ↔ h.Alive x ∧ ¬Doomed refs h owed x := by
  have hst : Stage refs h (Doomed refs h owed) owed [a] h :=
    ⟨hbal, fun _ _ => rfl, fun _ => Or.inl, fun _ => Iff.rfl⟩
  obtain ⟨h', hrel, hst', -⟩ := release_proceeds doomed_closed hst (Nat.lt_succ_self h.population)
  have hafter := release_after hrel
  refine ⟨_, h', hrel, hst'.balanced, hafter, fun x => ⟨fun hx => ?_, fun hx => ?_⟩⟩
  · exact ⟨hafter.alive x hx, fun hd => hst'.not_alive_of_doomed hd hx⟩
  · exact (hst'.gone x hx.1).resolve_right hx.2

/-! ## Heaps that are written down -/

/-- The counts of a list of objects are right if they are for its members, and these refer only to
one another. -/
lemma balanced_ofList {l : List (ι × Cell β)} {roots : List ι}
    (hroots : ∀ x ∈ roots, x ∈ l.map Prod.fst)
    (hrefs : ∀ e ∈ l, ∀ x ∈ refs e.2.body, x ∈ l.map Prod.fst)
    (hcount : ∀ x ∈ l.map Prod.fst,
      (Heap.ofList l).count x = (Heap.ofList l).inDegree refs x + roots.count x) :
    Balanced refs (Heap.ofList l) (fun x => roots.count x) [] := by
  intro x _
  rw [List.count_nil]
  by_cases hx : x ∈ l.map Prod.fst
  · simpa using hcount x hx
  · have hnone : (Heap.ofList l).cell x = none := by
      by_contra hsome
      have hmem := (Heap.ofList l).mem_dom x (Option.ne_none_iff_isSome.mp hsome)
      exact hx (List.mem_toFinset.mp hmem)
    have hdeg : (Heap.ofList l).inDegree refs x = 0 := by
      refine Heap.inDegree_eq_zero fun y hy => hx ?_
      obtain ⟨c, hc, -⟩ := id (Heap.alive_of_mem_held hy)
      rw [Heap.held_eq hc (Heap.alive_of_mem_held hy)] at hy
      obtain ⟨e, he, rfl⟩ := Option.map_eq_some_iff.mp (show ((l.find? fun e => e.1 = y).map Prod.snd)
        = some c from hc)
      exact hrefs e (List.mem_of_find?_eq_some he) x hy
    have hroot : roots.count x = 0 := List.count_eq_zero.mpr fun hr => hx (hroots x hr)
    simp [Heap.count, hnone, hdeg, hroot]

/-! ## Replacing a reference -/

variable {old new : ι} {body body₀ : β} {f : β → β}

/-- An object whose reference to `new` is stored in `d`: the count of `new` goes up. -/
def Cell.stored (d new : ι) (body : β) (x : ι) (c : Cell β) : Cell β where
  count := c.count + if x = new ∧ c.immortal = false then 1 else 0
  immortal := c.immortal
  body := if x = d then body else c.body

/-- A reference is taken and stored. -/
lemma store_spec (hnew : h.cell new = some c) (hd : h.cell d = some c') :
    ∃ g, ((retain h new).bind fun h => modify h d f) = some g ∧ g.dom = h.dom ∧
      ∀ x, g.cell x = (h.cell x).map (Cell.stored d new (f c'.body) x) := by
  obtain ⟨k, hret, hdom, hcell⟩ : ∃ k, retain h new = some k ∧ k.dom = h.dom ∧ ∀ x, k.cell x =
      (h.cell x).map fun c => { c with
        count := c.count + if x = new ∧ c.immortal = false then 1 else 0 } := by
    rw [retain, hnew]
    dsimp only
    split_ifs with himm
    · refine ⟨h, rfl, rfl, fun x => ?_⟩
      by_cases hx : x = new
      · simp only [hx, hnew, himm, Option.map_some, true_and, reduceCtorEq, if_false, add_zero]
        rw [← himm]
      · simp [hx]
    · refine ⟨_, rfl, Heap.put_dom hnew, fun x => ?_⟩
      by_cases hx : x = new
      · simp [hx, hnew, himm]
      · simp [hx, Heap.put_of_ne hx]
  have hkd := hcell d
  rw [hd, Option.map_some] at hkd
  refine ⟨k.put d (Cell.stored d new (f c'.body) d c'), ?_, (Heap.put_dom hkd).trans hdom,
    fun x => ?_⟩
  · rw [hret, Option.bind_some, modify, hkd]
    simp [Cell.stored]
  · by_cases hx : x = d
    · subst hx
      simp [hd, Cell.stored]
    · rw [Heap.put_of_ne hx, hcell x]
      congr 1
      funext e
      simp [Cell.stored, hx]

/-- **A stored reference is counted**: the counts are right again, and nothing else has changed. -/
lemma balanced_stored (hbal : Balanced refs h owed []) (hdom : g.dom = h.dom)
    (hcell : ∀ x, g.cell x = (h.cell x).map (Cell.stored d new body x)) (hnew : h.Alive new)
    (hd : h.cell d = some c) (halive : h.Alive d)
    (hslot : (refs body).Perm (new :: refs c.body)) :
    Balanced refs g owed [] ∧ ∀ x, g.Alive x ↔ h.Alive x := by
  have hlive : ∀ x, g.Alive x ↔ h.Alive x := by
    intro x
    cases hc : h.cell x with
    | none => simp [Heap.Alive, hcell x, hc]
    | some e =>
      have hgx := hcell x
      rw [hc, Option.map_some] at hgx
      rw [Heap.alive_iff hc, Heap.alive_iff hgx]
      by_cases hx : x = new ∧ e.immortal = false
      · obtain ⟨rfl, himm⟩ := hx
        have hpos := (Heap.alive_iff hc).mp hnew
        simp only [Cell.stored, himm, Bool.false_eq_true, false_or, and_self, if_true] at hpos ⊢
        omega
      · simp [Cell.stored, hx]
  have hheld : ∀ y, y ≠ d → g.held refs y = h.held refs y := by
    intro y hy
    simp only [Heap.held, hlive y, hcell y, Option.map_map]
    cases h.cell y <;> simp [Cell.stored, hy]
  have hgd : g.held refs d = refs body := by
    have hcd := hcell d
    rw [hd, Option.map_some] at hcd
    rw [Heap.held_eq hcd ((hlive d).mpr halive)]
    simp [Cell.stored]
  refine ⟨fun x hx => ?_, hlive⟩
  have hdeg := Heap.inDegree_change refs x hdom hheld (h.mem_dom d (by simp [hd]))
  rw [hgd, Heap.held_eq hd halive, hslot.count_eq x, List.count_cons] at hdeg
  have hmortal : ¬h.Immortal x := by
    rintro ⟨e, he, himm⟩
    exact hx ⟨Cell.stored d new body x e, by rw [hcell x, he, Option.map_some], himm⟩
  have hcount : g.count x = h.count x + if new = x then 1 else 0 := by
    cases hc : h.cell x with
    | none =>
      have hne : new ≠ x := by
        rintro rfl
        exact Heap.not_alive_of_none hc hnew
      simp [Heap.count, hcell x, hc, hne]
    | some e =>
      have himm : e.immortal = false := by
        rw [Heap.immortal_iff hc] at hmortal
        simpa using hmortal
      have hgx := hcell x
      rw [hc, Option.map_some] at hgx
      rw [Heap.count_eq hc, Heap.count_eq hgx]
      simp [Cell.stored, himm, eq_comm]
  have hold := hbal x hmortal
  rw [hcount, hold]
  simp only [beq_iff_eq] at hdeg
  split_ifs at hdeg ⊢ <;> omega

/-! ## References from outside -/

/-- One more reference to the object from outside. -/
def oneMore (owed : ι → ℕ) (a : ι) (x : ι) : ℕ := owed x + if x = a then 1 else 0

/-- Two heaps have the same objects, with counts of which the same are positive. -/
structure SameObjects (h g : Heap ι β) : Prop where
  /-- The same addresses have been in use. -/
  dom : g.dom = h.dom
  /-- The objects are the same but for their counts. -/
  object : ∀ x, g.object x = h.object x
  /-- The same objects are alive. -/
  alive : ∀ x, g.Alive x ↔ h.Alive x

omit [DecidableEq ι] in
/-- The object in the other heap. -/
lemma Heap.cell_of_object (hobj : g.object x = h.object x) (hx : h.cell x = some c) :
    ∃ c', g.cell x = some c' ∧ c'.body = c.body ∧ c'.immortal = c.immortal := by
  rw [Heap.object, Heap.object, hx] at hobj
  obtain ⟨c', hc', hpair⟩ := Option.map_eq_some_iff.mp hobj
  exact ⟨c', hc', congrArg Prod.fst hpair, congrArg Prod.snd hpair⟩

omit [DecidableEq ι] in
/-- What an object consists of. -/
lemma Heap.body_of_object {body : β} {b : Bool} (hobj : h.object x = some (body, b)) :
    (h.cell x).map Cell.body = some body := by
  obtain ⟨c, hc, hpair⟩ := Option.map_eq_some_iff.mp hobj
  rw [hc, Option.map_some]
  exact congrArg some (congrArg Prod.fst hpair)

omit [DecidableEq ι] in
/-- The same object refers to the same, if it is alive in both heaps or in neither. -/
lemma Heap.held_of_object (hobj : g.object x = h.object x) (hlive : g.Alive x ↔ h.Alive x) :
    g.held refs x = h.held refs x := by
  cases hx : h.cell x with
  | none =>
    have hg : g.cell x = none := by simpa [Heap.object, hx] using hobj
    rw [Heap.held_of_not_alive (Heap.not_alive_of_none hg),
      Heap.held_of_not_alive (Heap.not_alive_of_none hx)]
  | some c =>
    obtain ⟨c', hc', hbody, -⟩ := Heap.cell_of_object hobj hx
    by_cases ha : h.Alive x
    · rw [Heap.held_eq hc' (hlive.mpr ha), Heap.held_eq hx ha, hbody]
    · rw [Heap.held_of_not_alive ha, Heap.held_of_not_alive fun hg => ha (hlive.mp hg)]

omit [DecidableEq ι] in
/-- The same object is counted or not. -/
lemma Heap.immortal_of_object (hobj : g.object x = h.object x) : g.Immortal x ↔ h.Immortal x := by
  cases hx : h.cell x with
  | none =>
    have hg : g.cell x = none := by simpa [Heap.object, hx] using hobj
    simp [Heap.Immortal, hg, hx]
  | some c =>
    obtain ⟨c', hc', -, himm⟩ := Heap.cell_of_object hobj hx
    rw [Heap.immortal_iff hc', Heap.immortal_iff hx, himm]

omit [DecidableEq ι] in
/-- They refer to the same. -/
lemma SameObjects.held (hs : SameObjects h g) (x : ι) : g.held refs x = h.held refs x :=
  Heap.held_of_object (hs.object x) (hs.alive x)

/-- **The count of an object changes** with the references to it from outside, and stays positive
if it was. -/
lemma balanced_count {owed' : ι → ℕ} {k : ℤ} (hbal : Balanced refs h owed pending)
    (hc : h.cell a = some c) (hk : 0 < k ↔ 0 < c.count)
    (howed : ∀ x, (owed' x : ℤ) = owed x + if x = a then k - c.count else 0) :
    Balanced refs (h.put a { c with count := k }) owed' pending ∧
      SameObjects h (h.put a { c with count := k }) := by
  have hsame : SameObjects h (h.put a { c with count := k }) := by
    refine ⟨Heap.put_dom hc, fun x => ?_, fun x => ?_⟩
    · by_cases hx : x = a
      · rw [hx, Heap.object, Heap.object, Heap.put_same, hc, Option.map_some, Option.map_some]
      · rw [Heap.object, Heap.object, Heap.put_of_ne hx]
    · by_cases hx : x = a
      · rw [hx, Heap.alive_iff hc, Heap.alive_iff Heap.put_same]
        exact or_congr_right hk
      · exact Heap.alive_congr (Heap.put_of_ne hx)
  refine ⟨fun x hx => ?_, hsame⟩
  have hdeg := Heap.inDegree_congr refs x hsame.dom hsame.held
  have hold := hbal x fun hi => hx ((Heap.immortal_of_object (hsame.object x)).mpr hi)
  have hout := howed x
  rw [hdeg]
  by_cases hxa : x = a
  · subst hxa
    rw [if_pos rfl] at hout
    rw [Heap.count_eq hc] at hold
    rw [Heap.count_eq Heap.put_same]
    dsimp only
    omega
  · rw [if_neg hxa] at hout
    rw [Heap.count_congr (Heap.put_of_ne hxa), hold]
    omega

/-- **A reference is taken** from outside. -/
theorem balanced_retain (hbal : Balanced refs h owed pending) (ha : h.Alive a) :
    ∃ h', retain h a = some h' ∧ Balanced refs h' (oneMore owed a) pending ∧ SameObjects h h' := by
  obtain ⟨c, hc, hpos⟩ := id ha
  by_cases himm : c.immortal = true
  · refine ⟨h, by rw [retain, hc]; exact if_pos himm, fun x hx => ?_, ⟨rfl, fun _ => rfl, fun _ => Iff.rfl⟩⟩
    have hxa : x ≠ a := by
      rintro rfl
      exact hx ((Heap.immortal_iff hc).mpr himm)
    rw [hbal x hx, oneMore, if_neg hxa, Nat.add_zero]
  · have hcount : 0 < c.count := hpos.resolve_left himm
    have howed : ∀ x, (oneMore owed a x : ℤ) = owed x + if x = a then c.count + 1 - c.count else 0 := by
      intro x
      unfold oneMore
      split_ifs <;> omega
    exact ⟨_, by rw [retain, hc]; exact if_neg himm, balanced_count hbal hc (by omega) howed⟩

/-- **An object is made** that refers to nothing, with a reference to it from outside. -/
theorem balanced_alloc (hbal : Balanced refs h owed pending) (ha : a ∉ h.dom)
    (hbody : refs body = []) :
    Balanced refs (h.put a ⟨1, false, body⟩) (oneMore owed a) pending := by
  have hnone : h.cell a = none := by
    by_contra hsome
    exact ha (h.mem_dom a (Option.ne_none_iff_isSome.mp hsome))
  have hdeg : ∀ x, (h.put a ⟨1, false, body⟩).inDegree refs x = h.inDegree refs x := by
    intro x
    have hnew : (h.put a ⟨1, false, body⟩).held refs a = [] := by
      by_cases halive : (h.put a ⟨1, false, body⟩).Alive a
      · rw [Heap.held_eq Heap.put_same halive, hbody]
      · exact Heap.held_of_not_alive halive
    rw [Heap.inDegree, Heap.put, Finset.sum_insert ha]
    change ((h.put a ⟨1, false, body⟩).held refs a).count x + _ = _
    rw [hnew, List.count_nil, Nat.zero_add]
    refine Finset.sum_congr rfl fun y hy => ?_
    have hya : y ≠ a := by
      rintro rfl
      exact ha hy
    exact congrArg (List.count x) (Heap.held_congr (Heap.put_of_ne hya))
  intro x hx
  rw [hdeg, oneMore]
  by_cases hxa : x = a
  · subst hxa
    have hold := hbal x fun ⟨e, he, _⟩ => by simp [hnone] at he
    rw [Heap.count, hnone] at hold
    rw [Heap.count_eq Heap.put_same, if_pos rfl]
    dsimp only [Option.map_none, Option.getD_none] at hold ⊢
    omega
  · rw [Heap.immortal_congr (Heap.put_of_ne hxa)] at hx
    rw [if_neg hxa, Heap.count_congr (Heap.put_of_ne hxa), hbal x hx, Nat.add_zero]

/-- **References move** between an object, the outside and what is about to be released: the
counts are right again if each object is referred to as often as before. -/
theorem balanced_write {owed' : ι → ℕ} {pending' : List ι} (hbal : Balanced refs h owed pending)
    (hd : h.cell d = some c) (halive : h.Alive d)
    (hmove : ∀ x, (refs body).count x + owed' x + pending'.count x =
      (refs c.body).count x + owed x + pending.count x) :
    Balanced refs (h.put d { c with body }) owed' pending' := by
  have halive' : (h.put d { c with body }).Alive d := by
    rw [Heap.alive_iff hd] at halive
    exact (Heap.alive_iff Heap.put_same).mpr halive
  intro x hx
  have hdeg := Heap.inDegree_change refs x
    (Heap.put_dom (c := { c with body }) hd)
    (fun y hy => Heap.held_congr (Heap.put_of_ne hy)) (h.mem_dom d (by simp [hd]))
  rw [Heap.held_eq Heap.put_same halive', Heap.held_eq hd halive] at hdeg
  dsimp only at hdeg
  have hcell : (h.put d { c with body }).count x = h.count x ∧ ¬h.Immortal x := by
    by_cases hxd : x = d
    · subst hxd
      rw [Heap.immortal_iff Heap.put_same] at hx
      rw [Heap.count_eq Heap.put_same, Heap.count_eq hd, Heap.immortal_iff hd]
      exact ⟨rfl, hx⟩
    · rw [Heap.immortal_congr (Heap.put_of_ne hxd)] at hx
      exact ⟨Heap.count_congr (Heap.put_of_ne hxd), hx⟩
  have hcount := hbal x hcell.2
  have hx := hmove x
  rw [hcell.1]
  omega

/-- **Whoever was alive is kept** as long as it is there and nobody has taken a reference away: if
the counts were right, and everything that was alive is still what it was.

**Proof sketch.** Whoever was alive and has no reference from outside was referred to by something
that was alive, and that still is what it was. -/
theorem kept_of_same {owed' : ι → ℕ} (hbal : Balanced refs h owed [])
    (howed : ∀ x, owed x ≤ owed' x)
    (hsame : ∀ x, h.Alive x → g.Alive x ∧ g.object x = h.object x) (hx : h.Alive x) :
    ¬Doomed refs g owed' x := by
  intro hdoomed
  induction hdoomed with
  | intro x hmortal hout hin ih =>
    have hmortal' : ¬h.Immortal x := fun hi =>
      hmortal ((Heap.immortal_of_object (hsame x hx).2).mpr hi)
    have hdeg : h.inDegree refs x = 0 := by
      refine Heap.inDegree_eq_zero fun y hy => ?_
      have hylive := Heap.alive_of_mem_held hy
      have hheld : g.held refs y = h.held refs y :=
        Heap.held_of_object (hsame y hylive).2 (iff_of_true (hsame y hylive).1 hylive)
      exact ih y (hheld ▸ hy) hylive
    have hcount := hbal x hmortal'
    have hle := howed x
    rw [hdeg, List.count_nil] at hcount
    obtain ⟨c, hc, himm | hpos⟩ := hx
    · exact hmortal' ⟨c, hc, himm⟩
    · rw [Heap.count_eq hc] at hcount
      omega

/-- **Whoever is alive is kept**, if the counts are right. -/
theorem not_doomed_of_alive (hbal : Balanced refs h owed []) (hx : h.Alive x) :
    ¬Doomed refs h owed x :=
  kept_of_same hbal (fun _ => Nat.le_refl _) (fun _ hy => ⟨hy, rfl⟩) hx

/-- **A reference from outside is released** to an object that something refers to. -/
theorem release_held (hbal : Balanced refs h (oneMore owed a) []) (hy : a ∈ h.held refs y)
    (hmortal : ¬h.Immortal a) :
    ∃ h', (∀ n, release refs (n + 1) h a = some h') ∧ Balanced refs h' owed [] ∧
      SameObjects h h' := by
  have hcount := hbal a hmortal
  have hpos := Heap.inDegree_pos hy
  rw [oneMore, if_pos rfl, List.count_nil] at hcount
  obtain ⟨c, hc⟩ : ∃ c, h.cell a = some c := by
    by_contra hnone
    have hnone' : h.cell a = none := Option.eq_none_iff_forall_ne_some.mpr fun c hc => hnone ⟨c, hc⟩
    rw [Heap.count, hnone'] at hcount
    simp at hcount
    omega
  rw [Heap.count_eq hc] at hcount
  have himm : c.immortal = false := by
    rw [Heap.immortal_iff hc] at hmortal
    simpa using hmortal
  have howed : ∀ x, (owed x : ℤ) = oneMore owed a x + if x = a then c.count - 1 - c.count else 0 := by
    intro x
    unfold oneMore
    split_ifs <;> omega
  refine ⟨_, fun n => ?_, balanced_count hbal hc (by omega) howed⟩
  rw [release, hc]
  dsimp only
  rw [if_neg (by simp [himm]), if_neg (by omega)]

/-- A heap in which an object consists of something else. -/
lemma sameBut_put (hd : h.cell d = some c) (body : β) :
    SameBut d h (h.put d { c with body }) :=
  ⟨fun _ hx => Heap.put_of_ne hx, by simp [hd]⟩

/-- **A reference is taken and stored**, along with others from outside: the counts are right
again, the same objects are alive, and only the one that stores has changed. -/
theorem store_adopt {owed' : ι → ℕ} {taken : List ι} {new : ι} {f : β → β}
    (hbal : Balanced refs h owed' []) (hd : h.cell d = some c) (halive : h.Alive d)
    (hnew : h.Alive new) (hslots : (refs (f c.body)).Perm (new :: taken ++ refs c.body))
    (howed : ∀ x, owed' x = owed x + taken.count x) :
    ∃ h', ((retain h new).bind fun h => modify h d f) = some h' ∧ Balanced refs h' owed [] ∧
      h'.dom = h.dom ∧ (∀ x, h'.Alive x ↔ h.Alive x) ∧
      h'.object d = some (f c.body, c.immortal) ∧ ∀ x, x ≠ d → h'.object x = h.object x := by
  obtain ⟨g, hret, hbalg, hsame⟩ := balanced_retain hbal hnew
  obtain ⟨e, he, hbody, himm⟩ := Heap.cell_of_object (hsame.object d) hd
  have halived : g.Alive d := (hsame.alive d).mpr halive
  refine ⟨g.put d { e with body := f e.body }, ?_, ?_, ?_, ?_, ?_, ?_⟩
  · rw [hret, Option.bind_some, modify, he]
  · refine balanced_write hbalg he halived fun x => ?_
    simp only [hbody, hslots.count_eq x, List.count_append, List.cons_append, List.count_cons,
      oneMore, howed x, beq_iff_eq, eq_comm (a := new)]
    omega
  · rw [Heap.put_dom he, hsame.dom]
  · intro x
    rw [← hsame.alive x]
    exact (sameBut_put he _).alive x
  · rw [Heap.object, Heap.put_same, Option.map_some, hbody, himm]
  · intro x hx
    rw [Heap.object, Heap.put_of_ne hx]
    exact hsame.object x

/-- The counts are those of a heap in which a reference is gone that is about to be released. -/
lemma balanced_slot (hbal : Balanced refs h owed []) (hd : h.cell d = some c) (halive : h.Alive d)
    (hslot : (refs c.body).Perm (old :: refs body₀)) :
    Balanced refs (h.put d { c with body := body₀ }) owed [old] := by
  refine balanced_write hbal hd halive fun x => ?_
  simp only [hslot.count_eq x, List.count_cons, List.count_nil]
  omega

/-- **A replacement comes to an end** if something else keeps the new object and the one with the
reference: then the reference is to the new object, which is alive, and the counts are right
again.

**Proof sketch.** The object `d` survives the release of the old reference, so that the release is
the same as one in the heap without the reference, where the counts are right. -/
theorem replace_spec (hbal : Balanced refs h owed []) (hd : h.cell d = some c)
    (halive : h.Alive d) (hslot : (refs c.body).Perm (old :: refs body₀)) (hnew : h.Alive new)
    (hkeep : ¬Doomed refs (h.put d { c with body := body₀ }) owed d)
    (hkeep' : ¬Doomed refs (h.put d { c with body := body₀ }) owed new)
    (hf : (refs (f c.body)).Perm (new :: refs body₀)) :
    ∃ n h', replace refs n h d old new f = some h' ∧
      h'.object d = some (f c.body, c.immortal) ∧ h'.Alive new ∧ Balanced refs h' owed [] ∧
      (∀ x, h'.Alive x ↔ h.Alive x ∧ ¬Doomed refs (h.put d { c with body := body₀ }) owed x) ∧
      (∀ x c', x ≠ d → h'.cell x = some c' → h'.object x = h.object x) ∧ h'.dom = h.dom := by
  have hsame := sameBut_put hd body₀
  obtain ⟨n, k, hrel, hbalk, hafterk, hlivek⟩ := release_exact (balanced_slot hbal hd halive hslot)
  have hkd : k.Alive d := (hlivek d).mpr ⟨(hsame.alive d).mpr halive, hkeep⟩
  have hknew : k.Alive new := (hlivek new).mpr ⟨(hsame.alive new).mpr hnew, hkeep'⟩
  obtain ⟨h₁, hrel₁, hsame₁⟩ := release_sameBut hsame.symm hrel hkd
  obtain ⟨cn, hcn, -⟩ := (hsame₁.alive new).mpr hknew
  obtain ⟨c₁, hc₁, -⟩ := (hsame₁.alive d).mpr hkd
  obtain ⟨ck, hck, -⟩ := id hkd
  obtain ⟨hbody₁, himm₁⟩ : c₁.body = c.body ∧ c₁.immortal = c.immortal := by
    obtain ⟨c₀, hc₀, hbody, himm⟩ := (release_after hrel₁).body d c₁ hc₁
    rw [hd] at hc₀
    obtain rfl := Option.some_inj.mp hc₀
    exact ⟨hbody.symm, himm.symm⟩
  have hbodyk : ck.body = body₀ := by
    obtain ⟨c₀, hc₀, hbody, -⟩ := hafterk.body d ck hck
    rw [Heap.put_same] at hc₀
    obtain rfl := Option.some_inj.mp hc₀
    exact hbody.symm
  obtain ⟨g, hstore, hdom, hcell⟩ := store_spec (f := f) hcn hc₁
  rw [hbody₁] at hcell
  -- the result is also what storing in the heap without the reference gives
  have hcellk : ∀ x, g.cell x = (k.cell x).map (Cell.stored d new (f c.body) x) := by
    intro x
    rw [hcell x]
    by_cases hx : x = d
    · subst hx
      obtain ⟨c₂, hc₂, hcount, himm⟩ := hsame₁.cell hck
      rw [hc₂, hck]
      simp [Cell.stored, hcount, himm]
    · rw [hsame₁.1 x hx]
  have hdomk : g.dom = k.dom := by
    rw [hdom, (release_after hrel₁).dom, hafterk.dom, Heap.put_dom hd]
  obtain ⟨hbal', hlive⟩ := balanced_stored hbalk hdomk hcellk hknew hck hkd (hbodyk ▸ hf)
  refine ⟨n, g, ?_, ?_, (hlive new).mpr hknew, hbal', fun x => ?_, fun x c' hx hc' => ?_,
    hdomk.trans (hafterk.dom.trans (Heap.put_dom hd))⟩
  · rw [replace, hrel₁]
    exact hstore
  · rw [Heap.object, hcell d, hc₁]
    simp [Cell.stored, himm₁]
  · rw [hlive x, hlivek x, hsame.alive x]
  · rw [hcellk x] at hc'
    obtain ⟨e, he, rfl⟩ := Option.map_eq_some_iff.mp hc'
    obtain ⟨e₀, he₀, hbody, himm⟩ := hafterk.body x e he
    rw [Heap.put_of_ne hx] at he₀
    rw [Heap.object, Heap.object, he₀, hcellk x, he]
    simp [Cell.stored, hx, hbody, himm]

/-- A replacement that comes to an end has found both objects alive, so something else keeps
them. -/
lemma not_doomed_of_replace (hbal : Balanced refs h owed []) (hd : h.cell d = some c)
    (halive : h.Alive d) (hslot : (refs c.body).Perm (old :: refs body₀)) (hnew : h.Alive new)
    (hrep : replace refs n h d old new f = some h') :
    ¬Doomed refs (h.put d { c with body := body₀ }) owed d ∧
      ¬Doomed refs (h.put d { c with body := body₀ }) owed new := by
  have hsame := sameBut_put hd body₀
  obtain ⟨h₁, hrel₁, hrest⟩ := Option.bind_eq_some_iff.mp hrep
  obtain ⟨h₂, hret, hmod⟩ := Option.bind_eq_some_iff.mp hrest
  have hafter := release_after hrel₁
  have hnew₁ : h₁.Alive new := by
    refine (hafter.settled new hnew).resolve_right fun hnone => ?_
    simp [retain, hnone] at hret
  have hd₁ : h₁.Alive d := by
    refine (hafter.settled d halive).resolve_right fun hnone => ?_
    obtain ⟨e, he, -⟩ := hnew₁
    have hne : d ≠ new := by
      rintro rfl
      rw [hnone] at he
      cases he
    have hnone₂ : h₂.cell d = none := by
      rw [retain, he] at hret
      dsimp only at hret
      split_ifs at hret
      · obtain rfl := Option.some_inj.mp hret
        exact hnone
      · obtain rfl := Option.some_inj.mp hret
        rw [Heap.put_of_ne hne, hnone]
    simp [modify, hnone₂] at hmod
  obtain ⟨k, hrelk, hsamek⟩ := release_sameBut hsame hrel₁ hd₁
  obtain ⟨m, k', hrel, -, -, hlive⟩ := release_exact (balanced_slot hbal hd halive hslot)
  obtain rfl := release_congr hrelk hrel
  exact ⟨((hlive d).mp ((hsamek.alive d).mpr hd₁)).2,
    ((hlive new).mp ((hsamek.alive new).mpr hnew₁)).2⟩

end

end Refcount
