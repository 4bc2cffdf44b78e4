import Asteros.Objc.MethodCache

set_option autoImplicit false

/-!
# Methods that a program adds

`class_addMethod` looks for a method of the name through all superclasses, and adds its own only when
none has one. So a class cannot override what it inherits: the answer is `NO` for a selector that the
class itself has no method for, and messages go on to the inherited one. For a selector that nobody
above answers, the method is added, and it is found by the class and by its subclasses, also through
their caches, since none of them can have kept another method for it.

## Main definitions

* `AddsMethod` — what the caller of `class_addMethod` relies on.
* `Unanswered` — the condition: nobody above answers.

## Main results

* `addsMethod_iff` — the condition is exact.
* `not_addsMethod` — a subclass cannot override.
-/

namespace Asteros.Objc.Classes

/-- A class sees the methods of another one for a selector: that one is itself or a superclass, and
no class before it in the order of the lookup has a method for the selector. -/
def Sees (r : Runtime) (sel : Sel) (d c : ℕ) : Prop :=
  ∃ before after, r.chain d = before ++ c :: after ∧ ∀ e ∈ before, ownMethod r sel e = none

/-- What the caller of `class_addMethod` relies on: the answer is `YES` exactly when the class itself
has no method for the selector; then the class and every subclass that sees its methods find the new
one, in the classes and through their caches; and what a class finds that is not the class or a
subclass of it, as its superclasses are, stays. -/
structure AddsMethod (r : Runtime) (c : ℕ) (sel : Sel) (imp : Imp) : Prop where
  /-- The answer. -/
  answer : (classAddMethod r c sel imp).1 = true ↔ ownMethod r sel c = none
  /-- The class and its subclasses. -/
  below : (classAddMethod r c sel imp).1 = true → ∀ d, Sees r sel d c →
    (classLookupMethodT (classAddMethod r c sel imp).2 d sel).map Method.imp = some imp ∧
      (objcClassLookupAndCache (classAddMethod r c sel imp).2 d sel).map Prod.fst = some imp
  /-- The superclasses, and all others. -/
  above : ∀ d, c ∉ r.chain d → ∀ sel',
    classLookupMethodT (classAddMethod r c sel imp).2 d sel' = classLookupMethodT r d sel'

/-- The condition: the class itself has a method for the selector, or it is realized and none of its
superclasses has one. -/
def Unanswered (r : Runtime) (c : ℕ) (sel : Sel) : Prop :=
  (ownMethod r sel c).isSome ∨
    r.isRealized c = true ∧ ∀ d ∈ r.chain c, ownMethod r sel d = none

section

variable {r : Runtime} {img : Images} {c d : ℕ} {sel : Sel} {imp : Imp}

/-- A lookup finds nothing where no class has a method. -/
lemma classLookupMethodT_eq_none :
    classLookupMethodT r c sel = none ↔ ∀ d ∈ r.chain c, ownMethod r sel d = none :=
  List.findSome?_eq_none_iff

/-- A method is added where the class is realized and nobody answers. -/
lemma classAddMethod_eq {rw : ClassRw} (hrw : (r.classes c).rw = some rw)
    (hnone : classLookupMethodT r c sel = none) :
    classAddMethod r c sel imp =
      (true, r.setClass c { r.classes c with rw := some (rwAppendMethod rw sel imp) }) := by
  rw [classAddMethod, hrw, hnone]
  rfl

/-- The answer is `NO`, and nothing is added, where somebody answers. -/
lemma classAddMethod_of_isSome (h : (classLookupMethodT r c sel).isSome) :
    classAddMethod r c sel imp = (false, r) := by
  rw [classAddMethod]
  cases (r.classes c).rw with
  | none => rfl
  | some rw => exact if_pos h

/-- A class that has a method answers. -/
lemma lookup_isSome_of_mem {m : Method} (hd : d ∈ r.chain c) (hm : ownMethod r sel d = some m) :
    (classLookupMethodT r c sel).isSome := by
  rw [Option.isSome_iff_ne_none, ne_eq, classLookupMethodT_eq_none]
  intro hall
  rw [hall d hd] at hm
  cases hm

/-- The other classes have the methods they had. -/
lemma ownMethod_addMethod_of_ne (hne : d ≠ c) (sel' : Sel) :
    ownMethod (classAddMethod r c sel imp).2 sel' d = ownMethod r sel' d := by
  rw [ownMethod, ownMethod, (classAddMethod_updates sel imp).others d hne]

/-- What a class finds stays, if it is not the class or a subclass of it. -/
lemma lookup_addMethod_of_notMem (h : c ∉ r.chain d) (sel' : Sel) :
    classLookupMethodT (classAddMethod r c sel imp).2 d sel' = classLookupMethodT r d sel' := by
  refine classLookupMethodT_congr ((classAddMethod_updates sel imp).chain_eq d) fun e he => ?_
  refine ownMethod_addMethod_of_ne ?_ sel'
  rintro rfl
  exact h he

/-- A class that sees the methods of the class finds the new one. -/
lemma lookup_addMethod_of_sees (hreal : r.isRealized c)
    (hnone : ∀ e ∈ r.chain c, ownMethod r sel e = none) (hearlier : Ancestry.Earlier r.superclass)
    (hsees : Sees r sel d c) :
    classLookupMethodT (classAddMethod r c sel imp).2 d sel = some ⟨sel, imp⟩ := by
  obtain ⟨before, after, hchain, hbefore⟩ := hsees
  obtain ⟨rw, hrw⟩ := Option.isSome_iff_exists.mp hreal
  have hadd : classAddMethod r c sel imp =
      (true, r.setClass c { r.classes c with rw := some (rwAppendMethod rw sel imp) }) :=
    classAddMethod_eq hrw (classLookupMethodT_eq_none.2 hnone)
  have hown : ownMethod (classAddMethod r c sel imp).2 sel c = some ⟨sel, imp⟩ := by
    have hold : ownMethod r sel c = none := hnone c (Ancestry.self_mem_chain c)
    rw [ownMethod, hrw, Option.bind_some] at hold
    rw [hadd, ownMethod, Runtime.setClass_self, Option.bind_some, rwAppendMethod,
      List.find?_append, hold, Option.none_or, List.find?_singleton]
    simp
  have hskip : ∀ e ∈ before, ownMethod (classAddMethod r c sel imp).2 sel e = none := by
    intro e he
    rcases eq_or_ne e c with rfl | hne
    · -- the class does not come twice in the order of the lookup
      have hnodup := Ancestry.nodup_chain hearlier d
      rw [← Runtime.chain, hchain] at hnodup
      exact absurd List.mem_cons_self
        (List.disjoint_of_nodup_append hnodup he)
    · rw [ownMethod_addMethod_of_ne hne, hbefore e he]
  rw [classLookupMethodT, (classAddMethod_updates sel imp).chain_eq d, hchain,
    List.findSome?_append, List.findSome?_eq_none_iff.mpr hskip, Option.none_or,
    List.findSome?_cons, hown]

/-- **A method is added where nobody above answers, and only there.** In every run in which messages
are sent to classes that are realized with all their superclasses, and categories are attached
before the first message: `class_addMethod` answers `YES` exactly when the class itself has no
method for the selector, and then the class and its subclasses find the new method, if and only if
the class itself has one, or is realized and inherits none.

**Proof sketch.** The test for a method goes through all superclasses, so that the answer is `NO`
where one is inherited. Where none is, no class that sees the methods of the class can have found
one before, and the caches have what a lookup finds. -/
theorem addsMethod_iff (img : Images) (selRegisterName : String → Sel) {ops : List Op}
    (hrun : Transition.exec step (start img selRegisterName) ops = some r)
    (hops : Transition.Along step Orderly (start img selRegisterName) ops) (c : ℕ) (hsel : sel ≠ 0)
    (imp : Imp) : AddsMethod r c sel imp ↔ Unanswered r c sel := by
  have hstart : Cached img (start img selRegisterName) :=
    ⟨linked_start img selRegisterName, closed_start img selRegisterName, .of_quiet img.uncached⟩
  have hcached : Cached img r :=
    Transition.invariant_along (fun _ _ _ h ho hs => cached_step h ho hs) hstart hops hrun
  have hearlier := hcached.linked.earlier
  constructor
  · intro h
    cases hown : ownMethod r sel c with
    | some m => exact .inl (by rw [hown]; rfl)
    | none =>
      have hyes := h.answer.mpr hown
      have hnone : classLookupMethodT r c sel = none := by
        by_contra hsome
        rw [classAddMethod_of_isSome (Option.isSome_iff_ne_none.mpr hsome)] at hyes
        cases hyes
      refine .inr ⟨?_, classLookupMethodT_eq_none.1 hnone⟩
      rw [classAddMethod] at hyes
      cases hrw : (r.classes c).rw with
      | none =>
        rw [hrw] at hyes
        cases hyes
      | some rw => rw [Runtime.isRealized, hrw]; rfl
  · rintro (hown | ⟨hreal, hnone⟩)
    · obtain ⟨m, hm⟩ := Option.isSome_iff_exists.mp hown
      have hno : classAddMethod r c sel imp = (false, r) :=
        classAddMethod_of_isSome (lookup_isSome_of_mem (Ancestry.self_mem_chain c) hm)
      refine ⟨?_, fun hyes => ?_, fun d _ sel' => by rw [hno]⟩
      · rw [hno, hm]
        simp
      · rw [hno] at hyes
        cases hyes
    · obtain ⟨rw, hrw⟩ := Option.isSome_iff_exists.mp hreal
      have hadd : (classAddMethod r c sel imp).1 = true := by
        rw [classAddMethod_eq hrw (classLookupMethodT_eq_none.2 hnone)]
      refine ⟨?_, fun _ d hsees => ?_, fun d hd sel' => lookup_addMethod_of_notMem hd sel'⟩
      · simp [hadd, hnone c (Ancestry.self_mem_chain c)]
      · have hfound : classLookupMethodT (classAddMethod r c sel imp).2 d sel =
            some ⟨sel, imp⟩ := lookup_addMethod_of_sees hreal hnone hearlier hsees
        have hcoherent := hcached.coherent.addMethod (c := c) hcached.linked sel imp
        rw [hcoherent.lookup hsel, hfound]
        exact ⟨rfl, rfl⟩

end

/-- A class whose superclass does not answer `bar` gets a method for it, which its subclass finds,
also behind a message for another selector. -/
theorem addsMethod_new :
    ∃ r, Transition.exec step (start rootAndSub fun _ => 16) [.realize 2, .send 2 16] = some r ∧
      AddsMethod r 0 272 7 := by
  obtain ⟨r, hr, hfree⟩ : ∃ r, Transition.exec step (start rootAndSub fun _ => 16)
      [.realize 2, .send 2 16] = some r ∧ r.isRealized 0 = true ∧
        ∀ d ∈ r.chain 0, ownMethod r 272 d = none := ⟨_, rfl, by decide +kernel, by decide +kernel⟩
  exact ⟨r, hr, (addsMethod_iff rootAndSub (fun _ => 16) hr (by decide +kernel) 0 (by decide) 7).mpr
    (.inr hfree)⟩

/-- A class made by the program has no method for `foo`, but its superclass has: the answer is
`NO`, and the class goes on to find the inherited method. -/
theorem not_addsMethod :
    ∃ r, Transition.exec step (start rootAndSub fun _ => 16)
        [.realize 2, .allocateClassPair (some 0) "New" 0] = some r ∧
      (classAddMethod r 4 16 7).1 = false ∧ ownMethod r 16 4 = none ∧ ¬AddsMethod r 4 16 7 := by
  obtain ⟨r, hr, hno, hown⟩ : ∃ r, Transition.exec step (start rootAndSub fun _ => 16)
      [.realize 2, .allocateClassPair (some 0) "New" 0] = some r ∧
        (classAddMethod r 4 16 7).1 = false ∧ ownMethod r 16 4 = none :=
    ⟨_, rfl, by decide +kernel, by decide +kernel⟩
  refine ⟨r, hr, hno, hown, fun h => ?_⟩
  have hyes := h.answer.mpr hown
  rw [hno] at hyes
  cases hyes

end Asteros.Objc.Classes
