import Asteros.Objc.Classes
import Mathlib.Order.Nat

set_option autoImplicit false

/-!
# Realization of classes

What a call of `realize_class` for a class of an image does: superclasses first, each class is
realized once, and behind the class its metaclass. A property of the runtime that is kept when one
class is realized behind its superclass is kept by the whole call.

## Main definitions

* `Linked` — the class objects of the images are linked as they were.
* `Closed` — the superclass and the metaclass of a realized class are realized.

## Main results

* `realizeClass_spec` — the rule for `realize_class`.
* `linked_step` — every call keeps the links.
-/

namespace Asteros.Objc.Classes

open Function

variable {r r' r₁ r₂ : Runtime} {img : Images} {c d m p q : ℕ} {ct : ClassT}

/-! ## Class objects -/

/-- The class object that was set. -/
@[simp] lemma Runtime.setClass_self : (r.setClass c ct).classes c = ct := by
  simp [Runtime.setClass]

/-- The others stay. -/
@[simp] lemma Runtime.setClass_of_ne (h : d ≠ c) : (r.setClass c ct).classes d = r.classes d := by
  simp [Runtime.setClass, h]

/-- No class is registered. -/
@[simp] lemma Runtime.setClass_registered : (r.setClass c ct).registered = r.registered := rfl

/-- No number is given away. -/
@[simp] lemma Runtime.setClass_next : (r.setClass c ct).next = r.next := rfl

/-- The superclasses stay, if that of the class does. -/
lemma Runtime.superclass_setClass (h : ct.superclass = (r.classes c).superclass) :
    (r.setClass c ct).superclass = r.superclass := by
  funext d
  rcases eq_or_ne d c with rfl | hd
  · simp [Runtime.superclass, h]
  · simp [Runtime.superclass, hd]

/-! ## One class -/

/-- A registration adds the class to the table, and nothing else. -/
lemma objcRegisterDynamicClass_eq (h : objcRegisterDynamicClass r c = some r') :
    r' = { r with registered := r.registered ++ [c] } := by
  unfold objcRegisterDynamicClass at h
  split at h
  · exact (Option.some.inj h).symm
  · cases h

/-- There was room for it. -/
lemma objcRegisterDynamicClass_room (h : objcRegisterDynamicClass r c = some r') :
    r.registered.length < maxClasses := by
  unfold objcRegisterDynamicClass at h
  split at h
  · next hroom => exact hroom
  · cases h

/-- The methods that are added leave the rest of the class as it is. -/
lemma rwAddMethods_eq (sel : String → Sel) (rw : ClassRw) (ml : List RawMethod) :
    rwAddMethods sel rw ml =
      { rw with methods := rw.methods ++ ml.map fun m => ⟨sel m.name, m.imp⟩ } := by
  induction ml generalizing rw with
  | nil => simp [rwAddMethods]
  | cons m ml ih =>
    have hstep : rwAddMethods sel rw (m :: ml) =
        rwAddMethods sel (rwAppendMethod rw (sel m.name) m.imp) ml := rfl
    rw [hstep, ih]
    simp [rwAppendMethod]

/-- What is left of a step that realizes one class. -/
structure Realizes (r : Runtime) (c : ℕ) (r' : Runtime) : Prop where
  /-- The class. -/
  self : r'.classes c = realizedClass r c
  /-- The other classes. -/
  others : ∀ d, d ≠ c → r'.classes d = r.classes d
  /-- The numbers that are given away. -/
  next_eq : r'.next = r.next
  /-- Messages. -/
  sent_eq : r'.sent = r.sent
  /-- The class is registered. -/
  registered_eq : r'.registered = r.registered ++ [c]
  /-- The selectors. -/
  selRegisterName_eq : r'.selRegisterName = r.selRegisterName
  /-- There was room for the class. -/
  room : r.registered.length < maxClasses

/-- **The step that realizes one class changes that class only.** -/
theorem realizeOne_realizes (h : realizeOne r c = some r') : Realizes r c r' := by
  have heq := objcRegisterDynamicClass_eq h
  have hroom := objcRegisterDynamicClass_room h
  rw [Runtime.setClass_registered] at hroom
  subst heq
  exact ⟨by simp, fun d hd => by simp [hd], rfl, rfl, rfl, rfl, hroom⟩

/-- It fails where there is no room for the class. -/
lemma realizeOne_eq_none (h : realizeOne r c = none) : maxClasses ≤ r.registered.length := by
  unfold realizeOne objcRegisterDynamicClass at h
  split at h
  · cases h
  · next hfull => exact Nat.le_of_not_lt hfull

namespace Realizes

variable (h : Realizes r c r')

include h

/-- The class is realized. -/
lemma isRealized_self : r'.isRealized c := by
  simp [Runtime.isRealized, h.self, realizedClass]

/-- What else is realized was so before. -/
lemma isRealized_iff (hd : d ≠ c) : r'.isRealized d = r.isRealized d := by
  simp [Runtime.isRealized, h.others d hd]

/-- Realized classes stay realized. -/
lemma isRealized_mono (hd : r.isRealized d) : r'.isRealized d := by
  rcases eq_or_ne d c with rfl | hne
  · exact h.isRealized_self
  · rwa [h.isRealized_iff hne]

/-- The superclasses are the same. -/
lemma superclass_eq : r'.superclass = r.superclass := by
  funext d
  rcases eq_or_ne d c with rfl | hne
  · simp [Runtime.superclass, h.self, realizedClass]
  · simp [Runtime.superclass, h.others d hne]

/-- The metaclasses are the same. -/
lemma isa_eq (d : ℕ) : (r'.classes d).isa = (r.classes d).isa := by
  rcases eq_or_ne d c with rfl | hne
  · simp [h.self, realizedClass]
  · rw [h.others d hne]

/-- A metaclass is one as before. -/
lemma isMeta_eq (d : ℕ) : (r'.classes d).ro.isMeta = (r.classes d).ro.isMeta := by
  rcases eq_or_ne d c with rfl | hne
  · simp [h.self, realizedClass]
  · rw [h.others d hne]

/-- The caches are the same. -/
lemma cache_eq (d : ℕ) : (r'.classes d).cache = (r.classes d).cache := by
  rcases eq_or_ne d c with rfl | hne
  · simp [h.self, realizedClass]
  · rw [h.others d hne]

end Realizes

/-! ## Links -/

/-- The class objects of the images are linked as they were, and the others are realized. -/
structure Linked (img : Images) (r : Runtime) : Prop where
  /-- The class objects of the images exist. -/
  count_le : img.count ≤ r.next
  /-- Their superclasses. -/
  superclass_eq : ∀ c < img.count, r.superclass c = (img.classes c).superclass
  /-- Their metaclasses. -/
  isa_eq : ∀ c < img.count, (r.classes c).isa = (img.classes c).isa
  /-- Which of them are metaclasses. -/
  isMeta_eq : ∀ c < img.count, (r.classes c).ro.isMeta = (img.classes c).ro.isMeta
  /-- What the compiler knows of a class changes at its realization. -/
  ro_eq : ∀ c < img.count, r.isRealized c = false → (r.classes c).ro = (img.classes c).ro
  /-- Superclasses come first. -/
  earlier : Ancestry.Earlier r.superclass
  /-- The class objects that a program made are realized. -/
  made : ∀ c, img.count ≤ c → c < r.next → r.isRealized c
  /-- The metaclass of an object that exists does. -/
  isa_lt : ∀ c < r.next, ∀ m, (r.classes c).isa = some m → m < r.next

/-- The superclass and the metaclass of a realized class are realized. -/
structure Closed (img : Images) (r : Runtime) : Prop where
  /-- The superclass. -/
  superclass : ∀ c < img.count, r.isRealized c → ∀ p, r.superclass c = some p → r.isRealized p
  /-- The metaclass, and the metaclass of that. -/
  metaclass : ∀ c < img.count, (img.classes c).ro.isMeta = false → r.isRealized c →
    ∀ m, (r.classes c).isa = some m →
      r.isRealized m ∧ ∀ q, (r.classes m).isa = some q → r.isRealized q

/-- Before the first image is registered. -/
lemma linked_start (img : Images) (selRegisterName : String → Sel) :
    Linked img (start img selRegisterName) where
  count_le := Nat.le_refl _
  superclass_eq _ _ := rfl
  isa_eq _ _ := rfl
  isMeta_eq _ _ := rfl
  ro_eq _ _ _ := rfl
  earlier := img.superclass_lt
  made _ hc hlt := absurd hc (Nat.not_le.mpr hlt)
  isa_lt := img.isa_lt

/-- No class is realized then. -/
lemma closed_start (img : Images) (selRegisterName : String → Sel) :
    Closed img (start img selRegisterName) := by
  have hnone : ∀ c, (start img selRegisterName).isRealized c = false := fun c => by
    simp [Runtime.isRealized, start, img.unrealized c]
  constructor
  · intro c _ hreal
    rw [hnone c] at hreal
    cases hreal
  · intro c _ _ hreal
    rw [hnone c] at hreal
    cases hreal

/-- The step that realizes a class keeps the links. -/
lemma Linked.realizes (h : Linked img r) (hr : Realizes r c r') : Linked img r' := by
  constructor
  · rw [hr.next_eq]
    exact h.count_le
  · intro d hd
    rw [hr.superclass_eq]
    exact h.superclass_eq d hd
  · intro d hd
    rw [hr.isa_eq]
    exact h.isa_eq d hd
  · intro d hd
    rw [hr.isMeta_eq]
    exact h.isMeta_eq d hd
  · intro d hd hreal
    have hne : d ≠ c := by
      rintro rfl
      rw [hr.isRealized_self] at hreal
      cases hreal
    rw [hr.isRealized_iff hne] at hreal
    rw [hr.others d hne]
    exact h.ro_eq d hd hreal
  · rw [hr.superclass_eq]
    exact h.earlier
  · intro d hd hlt
    exact hr.isRealized_mono (h.made d hd (hr.next_eq ▸ hlt))
  · intro d hd m hm
    rw [hr.next_eq] at hd ⊢
    rw [hr.isa_eq] at hm
    exact h.isa_lt d hd m hm

/-- What is kept when one class behind its superclass is realized, for the members of the chain of a
class and for metaclasses. -/
def KeptByOne (img : Images) (c₀ : ℕ) (P : Runtime → Prop) : Prop :=
  ∀ r d r', P r → Linked img r → d < img.count → r.isRealized d = false →
    (∀ p, r.superclass d = some p → r.isRealized p) →
    d ∈ r.chain c₀ ∨ (img.classes d).ro.isMeta = true ∧ (r.superclass d).isSome ∧
      (∃ e < img.count, (img.classes e).ro.isMeta = false ∧ (img.classes e).isa = some d ∧
        r.isRealized e) →
    Realizes r d r' → P r'

/-- There is no room for a class that is to be realized. -/
def NoRoom (img : Images) (P : Runtime → Prop) : Prop :=
  ∃ r d, P r ∧ d < img.count ∧ r.isRealized d = false ∧ maxClasses ≤ r.registered.length

/-! ## The recursion -/

/-- A class that is realized is left alone. -/
lemma realizeClass_realized (fuel : ℕ) (h : r.isRealized c) : realizeClass (fuel + 1) r c = .ok r := by
  rw [realizeClass, if_pos h]

/-- A class of which the superclass is realized, and the metaclass too or the class itself, is
realized without more recursion. -/
lemma realizeClass_direct (fuel : ℕ) (h : r.isRealized c = false)
    (hsuper : ∀ p, r.superclass c = some p → r.isRealized p)
    (hisa : ∀ q, (r.classes c).isa = some q → q = c ∨ r.isRealized q) :
    (realizeClass (fuel + 2) r c = .error .tooManyClasses ∧ maxClasses ≤ r.registered.length) ∨
      ∃ r', Realizes r c r' ∧ realizeClass (fuel + 2) r c = .ok r' := by
  have hfirst : (r.superclass c).elim (.ok r) (realizeClass (fuel + 1) r) = .ok r := by
    cases hp : r.superclass c with
    | none => rfl
    | some p => exact realizeClass_realized fuel (hsuper p hp)
  rw [realizeClass, if_neg (by simp [h]), hfirst]
  dsimp only
  cases hone : realizeOne r c with
  | none => exact .inl ⟨rfl, realizeOne_eq_none hone⟩
  | some r' =>
    have hr := realizeOne_realizes hone
    refine .inr ⟨r', hr, ?_⟩
    dsimp only
    cases hq : (r'.classes c).isa with
    | none => rfl
    | some q =>
      have hreal : r'.isRealized q := by
        rw [hr.isa_eq] at hq
        rcases hisa q hq with rfl | hq
        · exact hr.isRealized_self
        · exact hr.isRealized_mono hq
      exact realizeClass_realized fuel hreal

section Metaclass

variable (hl : Linked img r) (hcl : Closed img r) (hc : c < img.count)
  (hclass : (img.classes c).ro.isMeta = false) (hm : (r.classes c).isa = some m)
  (hsuper : ∀ p, r.superclass c = some p → r.isRealized p)

include hl hcl hc hclass hm hsuper

/-- The superclass of the metaclass of a class whose superclass is realized is realized, or is the
class. -/
lemma superclass_metaclass (hp : r.superclass m = some p) : p = c ∨ r.isRealized p := by
  obtain ⟨m', himg, -⟩ := img.metaclass c hc hclass
  have hm' := img.isa_lt c hc m' himg
  rw [hl.isa_eq c hc, himg] at hm
  obtain rfl : m' = m := Option.some.inj hm
  rw [hl.superclass_eq m' hm', img.metaclass_superclass c hc hclass m' himg] at hp
  cases hq : (img.classes c).superclass with
  | none =>
    rw [hq, Option.elim_none] at hp
    exact .inl (Option.some.inj hp).symm
  | some q =>
    rw [hq, Option.elim_some] at hp
    have hqc : q < img.count := (img.superclass_lt c q hq).trans hc
    have hreal := hsuper q (by rw [hl.superclass_eq c hc, hq])
    rw [← hl.isa_eq q hqc] at hp
    exact .inr (hcl.metaclass q hqc (img.superclass_class c q hq hclass) hreal p hp).1

omit hcl hsuper in
/-- The metaclass of a class has a superclass. -/
lemma superclass_metaclass_isSome : (r.superclass m).isSome := by
  obtain ⟨m', himg, -⟩ := img.metaclass c hc hclass
  have hm' := img.isa_lt c hc m' himg
  rw [hl.isa_eq c hc, himg] at hm
  obtain rfl : m' = m := Option.some.inj hm
  rw [hl.superclass_eq m' hm', img.metaclass_superclass c hc hclass m' himg]
  cases hq : (img.classes c).superclass with
  | none => rfl
  | some q =>
    obtain ⟨n, hn, -⟩ := img.metaclass q ((img.superclass_lt c q hq).trans hc)
      (img.superclass_class c q hq hclass)
    rw [Option.elim_some, hn]
    rfl

/-- The metaclass of the metaclass of a class whose superclass is realized is realized, or is that
metaclass. -/
lemma isa_metaclass (hq : (r.classes m).isa = some q) : q = m ∨ r.isRealized q := by
  obtain ⟨m', himg, -⟩ := img.metaclass c hc hclass
  have hm' := img.isa_lt c hc m' himg
  rw [hl.isa_eq c hc, himg] at hm
  obtain rfl : m' = m := Option.some.inj hm
  rw [hl.isa_eq m' hm', img.metaclass_isa c hc hclass m' himg] at hq
  cases hp : (img.classes c).superclass with
  | none =>
    rw [hp, Option.elim_none] at hq
    exact .inl (Option.some.inj hq).symm
  | some p =>
    rw [hp, Option.elim_some] at hq
    obtain ⟨n, hn, hq⟩ := Option.bind_eq_some_iff.mp hq
    have hpc : p < img.count := (img.superclass_lt c p hp).trans hc
    have hpclass := img.superclass_class c p hp hclass
    have hreal := hsuper p (by rw [hl.superclass_eq c hc, hp])
    obtain ⟨n', hin, -⟩ := img.metaclass p hpc hpclass
    have hn' := img.isa_lt p hpc n' hin
    obtain rfl : n' = n := Option.some.inj (hin.symm.trans hn)
    rw [← hl.isa_eq p hpc] at hn
    rw [← hl.isa_eq n' hn'] at hq
    exact .inr ((hcl.metaclass p hpc hpclass hreal n' hn).2 q hq)

/-- Once a class and its metaclass are realized behind the superclass, the superclasses and the
metaclasses of the realized classes are realized again. -/
lemma Closed.of_pair (hl' : Linked img r') (hmono : ∀ d, r.isRealized d → r'.isRealized d)
    (honly : ∀ d, r'.isRealized d → r.isRealized d ∨ d = c ∨ d = m) (hc' : r'.isRealized c)
    (hm' : r'.isRealized m) : Closed img r' := by
  obtain ⟨n, himg, hmeta⟩ := img.metaclass c hc hclass
  have hnm : n = m := Option.some.inj ((himg.symm.trans (hl.isa_eq c hc).symm).trans hm)
  subst hnm
  have hsup : ∀ d < img.count, r'.superclass d = r.superclass d := fun d hd =>
    (hl'.superclass_eq d hd).trans (hl.superclass_eq d hd).symm
  have hisa : ∀ d < img.count, (r'.classes d).isa = (r.classes d).isa := fun d hd =>
    (hl'.isa_eq d hd).trans (hl.isa_eq d hd).symm
  constructor
  · intro d hd hreal p hp
    rw [hsup d hd] at hp
    rcases honly d hreal with hreal | rfl | rfl
    · exact hmono p (hcl.superclass d hd hreal p hp)
    · exact hmono p (hsuper p hp)
    · rcases superclass_metaclass hl hcl hc hclass hm hsuper hp with rfl | hp
      · exact hc'
      · exact hmono p hp
  · intro d hd hdclass hreal k hk
    rw [hisa d hd] at hk
    have hkc : k < img.count := by
      rw [hl.isa_eq d hd] at hk
      exact img.isa_lt d hd k hk
    rw [hisa k hkc]
    rcases honly d hreal with hreal | rfl | rfl
    · have hboth := hcl.metaclass d hd hdclass hreal k hk
      exact ⟨hmono k hboth.1, fun q hq => hmono q (hboth.2 q hq)⟩
    · obtain rfl : n = k := Option.some.inj (hm.symm.trans hk)
      refine ⟨hm', fun q hq => ?_⟩
      rcases isa_metaclass hl hcl hc hclass hm hsuper hq with rfl | hq
      · exact hm'
      · exact hmono q hq
    · rw [hmeta] at hdclass
      cases hdclass

end Metaclass

/-- What a call of `realize_class` for a class leaves. -/
structure Realized (img : Images) (P : Runtime → Prop) (r : Runtime) (c : ℕ) (r' : Runtime) :
    Prop where
  /-- The property. -/
  kept : P r'
  /-- The links. -/
  linked : Linked img r'
  /-- The superclasses and the metaclasses. -/
  closed : Closed img r'
  /-- The superclasses are the same. -/
  superclass_eq : r'.superclass = r.superclass
  /-- The class is realized. -/
  realized : r'.isRealized c
  /-- No subclass is. -/
  later : ∀ d, (img.classes d).ro.isMeta = false → c < d → r'.isRealized d = r.isRealized d

/-- **The rule for `realize_class`**: the call for a class of an image comes to an end, what is kept
when one class behind its superclass is realized is kept by it, and it fails only where there is no
room.

**Proof sketch.** Induction on the bound. The call for the superclass does not realize the class;
behind the class only its metaclass is left, since the superclass and the metaclass of that are
realized by then, or are the two themselves. -/
theorem realizeClass_spec {P : Runtime → Prop} {c₀ : ℕ} (hP : KeptByOne img c₀ P) {fuel : ℕ}
    (hfuel : realizeFuel c ≤ fuel) (hc : c < img.count)
    (hclass : (img.classes c).ro.isMeta = false) (hin : c ∈ r.chain c₀) (hl : Linked img r)
    (hcl : Closed img r) (hp : P r) :
    (realizeClass fuel r c = .error .tooManyClasses ∧ NoRoom img P) ∨
      ∃ r', realizeClass fuel r c = .ok r' ∧ Realized img P r c r' := by
  induction fuel generalizing r c with
  | zero => exact absurd hfuel (by simp [realizeFuel])
  | succ fuel ih =>
    by_cases hreal : r.isRealized c = true
    · exact .inr ⟨r, realizeClass_realized fuel hreal, hp, hl, hcl, rfl, hreal, fun _ _ _ => rfl⟩
    simp only [Bool.not_eq_true] at hreal
    -- the call for the superclass
    have hfirst : ((r.superclass c).elim (.ok r) (realizeClass fuel r) = .error .tooManyClasses ∧
          NoRoom img P) ∨
        ∃ r₁, (r.superclass c).elim (.ok r) (realizeClass fuel r) = .ok r₁ ∧ P r₁ ∧
          Linked img r₁ ∧ Closed img r₁ ∧ r₁.superclass = r.superclass ∧
          (∀ p, r.superclass c = some p → r₁.isRealized p) ∧
          ∀ d, (img.classes d).ro.isMeta = false → c ≤ d → r₁.isRealized d = r.isRealized d := by
      cases hsup : r.superclass c with
      | none => exact .inr ⟨r, rfl, hp, hl, hcl, rfl, by simp, fun _ _ _ => rfl⟩
      | some p =>
        have himg : (img.classes c).superclass = some p := by rw [← hl.superclass_eq c hc, hsup]
        have hpc : p < c := img.superclass_lt c p himg
        have hpin : p ∈ r.chain c₀ := Ancestry.mem_chain_trans hl.earlier hin
          ((Ancestry.mem_chain_iff hl.earlier).mpr
            (.inr ⟨p, hsup, Ancestry.self_mem_chain p⟩))
        have hfuel' : realizeFuel p ≤ fuel := by
          unfold realizeFuel at hfuel ⊢
          omega
        rcases ih hfuel' (hpc.trans hc) (img.superclass_class c p himg hclass) hpin hl hcl hp with
          herr | ⟨r₁, hok, h₁⟩
        · exact .inl herr
        · refine .inr ⟨r₁, hok, h₁.kept, h₁.linked, h₁.closed, h₁.superclass_eq, ?_, ?_⟩
          · intro q hq
            obtain rfl : p = q := Option.some.inj hq
            exact h₁.realized
          · intro d hd hle
            exact h₁.later d hd (hpc.trans_le hle)
    rw [realizeClass, if_neg (by simp [hreal])]
    rcases hfirst with ⟨herr, hfull⟩ | ⟨r₁, hok, hp₁, hl₁, hcl₁, hsup₁, hsuper, hlater⟩
    · rw [herr]
      exact .inl ⟨rfl, hfull⟩
    rw [hok]
    dsimp only
    have hreal₁ : r₁.isRealized c = false := (hlater c hclass (Nat.le_refl c)).trans hreal
    have hsuper₁ : ∀ p, r₁.superclass c = some p → r₁.isRealized p := by
      rw [hsup₁]
      exact hsuper
    have hchain : r₁.chain c₀ = r.chain c₀ := by rw [Runtime.chain, hsup₁, Runtime.chain]
    -- the class itself
    cases hone : realizeOne r₁ c with
    | none => exact .inl ⟨rfl, r₁, c, hp₁, hc, hreal₁, realizeOne_eq_none hone⟩
    | some r₂ =>
      have hr₂ := realizeOne_realizes hone
      have hp₂ : P r₂ := hP r₁ c r₂ hp₁ hl₁ hc hreal₁ hsuper₁ (.inl (hchain ▸ hin)) hr₂
      have hl₂ := hl₁.realizes hr₂
      obtain ⟨m, himg, hmeta⟩ := img.metaclass c hc hclass
      have hmc := img.isa_lt c hc m himg
      have hm₁ : (r₁.classes c).isa = some m := by rw [hl₁.isa_eq c hc, himg]
      have hm₂ : (r₂.classes c).isa = some m := by rw [hr₂.isa_eq, hm₁]
      have hsame : ∀ d, (img.classes d).ro.isMeta = false → c < d →
          r₂.isRealized d = r.isRealized d := fun d hd hlt =>
        (hr₂.isRealized_iff (by omega)).trans (hlater d hd hlt.le)
      dsimp only
      rw [hm₂, Option.elim_some]
      -- its metaclass
      by_cases hmreal : r₂.isRealized m = true
      · refine .inr ⟨r₂, ?_, hp₂, hl₂, ?_, hr₂.superclass_eq.trans hsup₁, hr₂.isRealized_self,
          hsame⟩
        · obtain ⟨k, rfl⟩ : ∃ k, fuel = k + 1 := ⟨fuel - 1, by unfold realizeFuel at hfuel; omega⟩
          exact realizeClass_realized k hmreal
        · refine Closed.of_pair hl₁ hcl₁ hc hclass hm₁ hsuper₁ hl₂ (fun d => hr₂.isRealized_mono) ?_
            hr₂.isRealized_self hmreal
          intro d hd
          rcases eq_or_ne d c with hdc | hdc
          · exact .inr (.inl hdc)
          · exact .inl (hr₂.isRealized_iff hdc ▸ hd)
      · simp only [Bool.not_eq_true] at hmreal
        have hmsuper : ∀ p, r₂.superclass m = some p → r₂.isRealized p := by
          intro p hpm
          rw [hr₂.superclass_eq] at hpm
          rcases superclass_metaclass hl₁ hcl₁ hc hclass hm₁ hsuper₁ hpm with rfl | hreal'
          · exact hr₂.isRealized_self
          · exact hr₂.isRealized_mono hreal'
        have hmisa : ∀ q, (r₂.classes m).isa = some q → q = m ∨ r₂.isRealized q := by
          intro q hq
          rw [hr₂.isa_eq] at hq
          exact (isa_metaclass hl₁ hcl₁ hc hclass hm₁ hsuper₁ hq).imp_right hr₂.isRealized_mono
        obtain ⟨k, rfl⟩ : ∃ k, fuel = k + 2 := ⟨fuel - 2, by unfold realizeFuel at hfuel; omega⟩
        rcases realizeClass_direct k hmreal hmsuper hmisa with ⟨herr, hfull⟩ | ⟨r₃, hr₃, hok₃⟩
        · exact .inl ⟨herr, r₂, m, hp₂, hmc, hmreal, hfull⟩
        have hl₃ := hl₂.realizes hr₃
        have hmchain : (r₂.superclass m).isSome := superclass_metaclass_isSome hl₂ hc hclass hm₂
        refine .inr ⟨r₃, hok₃, hP r₂ m r₃ hp₂ hl₂ hmc hmreal hmsuper
          (.inr ⟨hmeta, hmchain, c, hc, hclass, himg, hr₂.isRealized_self⟩) hr₃, hl₃,
          ?_,
          (hr₃.superclass_eq.trans hr₂.superclass_eq).trans hsup₁,
          hr₃.isRealized_mono hr₂.isRealized_self, ?_⟩
        · refine Closed.of_pair hl₁ hcl₁ hc hclass hm₁ hsuper₁ hl₃
            (fun d hd => hr₃.isRealized_mono (hr₂.isRealized_mono hd)) ?_
            (hr₃.isRealized_mono hr₂.isRealized_self) hr₃.isRealized_self
          intro d hd
          rcases eq_or_ne d m with hdm | hdm
          · exact .inr (.inr hdm)
          rw [hr₃.isRealized_iff hdm] at hd
          rcases eq_or_ne d c with hdc | hdc
          · exact .inr (.inl hdc)
          · exact .inl (hr₂.isRealized_iff hdc ▸ hd)
        · intro d hd hlt
          have hdm : d ≠ m := by
            rintro rfl
            rw [hmeta] at hd
            cases hd
          rw [hr₃.isRealized_iff hdm]
          exact hsame d hd hlt

/-! ## Calls -/

/-- What a call leaves that changes one class object, but not its links. -/
structure Updates (r : Runtime) (c : ℕ) (r' : Runtime) : Prop where
  /-- The other class objects. -/
  others : ∀ d, d ≠ c → r'.classes d = r.classes d
  /-- The metaclass. -/
  isa : (r'.classes c).isa = (r.classes c).isa
  /-- The superclass. -/
  superclass : (r'.classes c).superclass = (r.classes c).superclass
  /-- What the compiler knows. -/
  ro : (r'.classes c).ro = (r.classes c).ro
  /-- Whether the class is realized. -/
  realized : r'.isRealized c = r.isRealized c
  /-- The numbers that are given away. -/
  next_eq : r'.next = r.next

/-- Nothing changes. -/
lemma Updates.refl (c : ℕ) : Updates r c r := ⟨fun _ _ => rfl, rfl, rfl, rfl, rfl, rfl⟩

namespace Updates

variable (h : Updates r c r')

include h

/-- The metaclasses are the same. -/
lemma isa_eq (d : ℕ) : (r'.classes d).isa = (r.classes d).isa := by
  rcases eq_or_ne d c with rfl | hne
  · exact h.isa
  · rw [h.others d hne]

/-- The superclasses are the same. -/
lemma superclass_eq : r'.superclass = r.superclass := by
  funext d
  rcases eq_or_ne d c with rfl | hne
  · exact h.superclass
  · rw [Runtime.superclass, Runtime.superclass, h.others d hne]

/-- What the compiler knows is the same. -/
lemma ro_eq (d : ℕ) : (r'.classes d).ro = (r.classes d).ro := by
  rcases eq_or_ne d c with rfl | hne
  · exact h.ro
  · rw [h.others d hne]

/-- The same classes are realized. -/
lemma isRealized_eq (d : ℕ) : r'.isRealized d = r.isRealized d := by
  rcases eq_or_ne d c with rfl | hne
  · exact h.realized
  · rw [Runtime.isRealized, Runtime.isRealized, h.others d hne]

/-- The chains are the same. -/
lemma chain_eq (d : ℕ) : r'.chain d = r.chain d := by
  rw [Runtime.chain, Runtime.chain, h.superclass_eq]

end Updates

/-- A call that keeps the links keeps the links. -/
lemma Linked.updates (h : Linked img r) (hu : Updates r c r') : Linked img r' := by
  constructor
  · rw [hu.next_eq]
    exact h.count_le
  · intro d hd
    rw [hu.superclass_eq]
    exact h.superclass_eq d hd
  · intro d hd
    rw [hu.isa_eq]
    exact h.isa_eq d hd
  · intro d hd
    rw [hu.ro_eq]
    exact h.isMeta_eq d hd
  · intro d hd hreal
    rw [hu.isRealized_eq] at hreal
    rw [hu.ro_eq]
    exact h.ro_eq d hd hreal
  · rw [hu.superclass_eq]
    exact h.earlier
  · intro d hd hlt
    rw [hu.isRealized_eq]
    exact h.made d hd (hu.next_eq ▸ hlt)
  · intro d hd m hm
    rw [hu.next_eq] at hd ⊢
    rw [hu.isa_eq] at hm
    exact h.isa_lt d hd m hm

/-- A call that keeps the links keeps the superclasses and the metaclasses realized. -/
lemma Closed.updates (h : Closed img r) (hu : Updates r c r') : Closed img r' := by
  constructor
  · intro d hd hreal p hp
    rw [hu.isRealized_eq] at hreal ⊢
    rw [hu.superclass_eq] at hp
    exact h.superclass d hd hreal p hp
  · intro d hd hclass hreal m hm
    rw [hu.isRealized_eq] at hreal ⊢
    rw [hu.isa_eq] at hm
    refine (h.metaclass d hd hclass hreal m hm).imp_right fun hq q hmq => ?_
    rw [hu.isRealized_eq]
    rw [hu.isa_eq] at hmq
    exact hq q hmq

/-- Methods for a class. -/
lemma addMethods_updates (ml : List RawMethod) : Updates r c (addMethods r c ml) := by
  unfold addMethods
  split
  · exact .refl c
  · next rw hrw =>
    exact ⟨fun d hd => by simp [hd], by simp, by simp, by simp, by simp [Runtime.isRealized, hrw],
      rfl⟩

/-- `class_addMethod`. -/
lemma classAddMethod_updates (name : Sel) (imp : Imp) :
    Updates r c (classAddMethod r c name imp).2 := by
  unfold classAddMethod
  split
  · exact .refl c
  · next rw hrw =>
    split
    · exact .refl c
    · exact ⟨fun d hd => by simp [hd], by simp, by simp, by simp,
        by simp [Runtime.isRealized, hrw], rfl⟩

/-- `class_addIvar`. -/
lemma classAddIvar_updates (name : String) (size alignment : ℕ) :
    Updates r c (classAddIvar r c name size alignment).2 := by
  unfold classAddIvar
  split
  · exact .refl c
  · next rw hrw =>
    exact ⟨fun d hd => by simp [hd], by simp, by simp, by simp, by simp [Runtime.isRealized, hrw],
      rfl⟩

/-- `objc_class_lookup_and_cache`. -/
lemma lookupAndCache_updates {sel : Sel} {imp : Imp}
    (h : objcClassLookupAndCache r c sel = some (imp, r')) : Updates r c r' := by
  have hkeep : ∀ cache : Cache, Updates r c
      { r.setClass c { r.classes c with cache := some cache } with sent := true } := fun cache =>
    ⟨fun d hd => by simp [hd], by simp, by simp, by simp, by simp [Runtime.isRealized], rfl⟩
  unfold objcClassLookupAndCache at h
  dsimp only at h
  split at h
  · cases h
    exact hkeep _
  · split at h
    · cases h
    · cases h
      exact hkeep _

/-- What `objc_allocateClassPair` leaves when it makes a class. -/
structure Allocates (r : Runtime) (superclass : Option ℕ) (name : String) (extraBytes : ℕ)
    (r' : Runtime) : Prop where
  /-- The class. -/
  cls : r'.classes r.next = allocatedClass r superclass name extraBytes
  /-- The metaclass. -/
  metaCls : r'.classes (r.next + 1) = allocatedMeta r superclass name
  /-- The other class objects. -/
  others : ∀ d, d ≠ r.next → d ≠ r.next + 1 → r'.classes d = r.classes d
  /-- The numbers that are given away. -/
  next_eq : r'.next = r.next + 2
  /-- Messages. -/
  sent_eq : r'.sent = r.sent

/-- `objc_allocateClassPair`. -/
lemma objcAllocateClassPair_allocates (superclass : Option ℕ) (name : String) (extraBytes : ℕ) :
    (objcAllocateClassPair r superclass name extraBytes).2 = r ∨
      Allocates r superclass name extraBytes
        (objcAllocateClassPair r superclass name extraBytes).2 := by
  unfold objcAllocateClassPair
  split
  · exact .inl rfl
  · refine .inr ⟨?_, ?_, ?_, rfl, rfl⟩
    · simp [Runtime.setClass]
    · simp [Runtime.setClass]
    · intro d hd hd'
      simp [Runtime.setClass, hd, hd']

namespace Allocates

variable {superclass : Option ℕ} {name : String} {extraBytes : ℕ}
  (h : Allocates r superclass name extraBytes r')

include h

/-- The class objects there were are the same. -/
lemma classes_eq (hd : d < r.next) : r'.classes d = r.classes d :=
  h.others d (by omega) (by omega)

/-- Those that were realized are. -/
lemma isRealized_eq (hd : d < r.next) : r'.isRealized d = r.isRealized d := by
  rw [Runtime.isRealized, Runtime.isRealized, h.classes_eq hd]

/-- Superclasses come first again. -/
lemma earlier (hl : Linked img r) (hsuper : ∀ p ∈ superclass, p < r.next) :
    Ancestry.Earlier r'.superclass := by
  intro d p hp
  rcases eq_or_ne d r.next with rfl | hd
  · rw [Runtime.superclass, h.cls] at hp
    exact hsuper p hp
  rcases eq_or_ne d (r.next + 1) with rfl | hd'
  · rw [Runtime.superclass, h.metaCls] at hp
    obtain ⟨q, hq, hp⟩ := Option.bind_eq_some_iff.mp hp
    exact (hl.isa_lt q (hsuper q hq) p hp).trans (Nat.lt_succ_self _)
  · rw [Runtime.superclass, h.others d hd hd'] at hp
    exact hl.earlier d p hp

/-- The chains of the class objects there were are the same. -/
lemma chain_eq (hl : Linked img r) (hsuper : ∀ p ∈ superclass, p < r.next) (hd : d < r.next) :
    r'.chain d = r.chain d := by
  refine Ancestry.chain_congr hl.earlier (h.earlier hl hsuper) fun e he => ?_
  have hlt : e < r.next := (Ancestry.le_of_mem_chain hl.earlier he).trans_lt hd
  rw [Runtime.superclass, Runtime.superclass, h.classes_eq hlt]

/-- The links are kept. -/
lemma linked (hl : Linked img r) (hsuper : ∀ p ∈ superclass, p < r.next) : Linked img r' := by
  have hold : ∀ d < img.count, r'.classes d = r.classes d := fun d hd =>
    h.classes_eq (hd.trans_le hl.count_le)
  constructor
  · have hle := hl.count_le
    rw [h.next_eq]
    omega
  · intro d hd
    rw [← hl.superclass_eq d hd, Runtime.superclass, Runtime.superclass, hold d hd]
  · intro d hd
    rw [hold d hd]
    exact hl.isa_eq d hd
  · intro d hd
    rw [hold d hd]
    exact hl.isMeta_eq d hd
  · intro d hd hreal
    rw [h.isRealized_eq (hd.trans_le hl.count_le)] at hreal
    rw [hold d hd]
    exact hl.ro_eq d hd hreal
  · exact h.earlier hl hsuper
  · intro d hd hlt
    rcases eq_or_ne d r.next with rfl | hne
    · simp [Runtime.isRealized, h.cls, allocatedClass]
    rcases eq_or_ne d (r.next + 1) with rfl | hne'
    · simp [Runtime.isRealized, h.metaCls, allocatedMeta]
    · have hlt' : d < r.next := by
        rw [h.next_eq] at hlt
        omega
      rw [h.isRealized_eq hlt']
      exact hl.made d hd hlt'
  · intro d hd m hm
    rw [h.next_eq] at hd ⊢
    rcases eq_or_ne d r.next with rfl | hne
    · rw [h.cls] at hm
      obtain rfl : r.next + 1 = m := Option.some.inj hm
      omega
    rcases eq_or_ne d (r.next + 1) with rfl | hne'
    · rw [h.metaCls] at hm
      cases hsup : superclass with
      | none =>
        simp only [allocatedMeta, hsup, Option.elim_none] at hm
        obtain rfl : r.next + 1 = m := Option.some.inj hm
        omega
      | some q =>
        simp only [allocatedMeta, hsup, Option.elim_some] at hm
        have hlt := hl.isa_lt q (hsuper q (by rw [hsup]; rfl)) m hm
        omega
    · rw [h.others d hne hne'] at hm
      have hlt := hl.isa_lt d (by omega) m hm
      omega

/-- The superclasses and metaclasses stay realized. -/
lemma closed (hl : Linked img r) (hcl : Closed img r) : Closed img r' := by
  have hlt : ∀ d < img.count, d < r.next := fun d hd => hd.trans_le hl.count_le
  constructor
  · intro d hd hreal p hp
    rw [h.isRealized_eq (hlt d hd)] at hreal
    rw [Runtime.superclass, h.classes_eq (hlt d hd)] at hp
    rw [h.isRealized_eq ((hl.earlier d p hp).trans (hlt d hd))]
    exact hcl.superclass d hd hreal p hp
  · intro d hd hclass hreal m hm
    rw [h.isRealized_eq (hlt d hd)] at hreal
    rw [h.classes_eq (hlt d hd)] at hm
    have hm' := hl.isa_lt d (hlt d hd) m hm
    rw [h.isRealized_eq hm', h.classes_eq hm']
    refine (hcl.metaclass d hd hclass hreal m hm).imp_right fun hq q hmq => ?_
    rw [h.isRealized_eq (hl.isa_lt m hm' q hmq)]
    exact hq q hmq

end Allocates

/-- A registration changes the table only. -/
lemma objcRegisterDynamicClass_updates (h : objcRegisterDynamicClass r c = some r') (d : ℕ) :
    Updates r d r' := by
  have heq := objcRegisterDynamicClass_eq h
  subst heq
  exact ⟨fun _ _ => rfl, rfl, rfl, rfl, rfl, rfl⟩

/-- **The rule for the realization of a class of an image**: what is kept when one class behind its
superclass is realized is kept. -/
theorem step_realize {P : Runtime → Prop} (hP : KeptByOne img c P) (hl : Linked img r)
    (hcl : Closed img r) (hp : P r) (h : step r (.realize c) = some r') :
    P r' ∧ Linked img r' ∧ Closed img r' := by
  rw [step] at h
  split at h
  · next hok =>
    rcases Nat.lt_or_ge c img.count with hc | hc
    · have hclass : (img.classes c).ro.isMeta = false := by rw [← hl.isMeta_eq c hc, hok.2]
      rcases realizeClass_spec hP (Nat.le_refl _) hc hclass (Ancestry.self_mem_chain c) hl hcl hp
        with ⟨herr, -⟩ | ⟨r'', hr'', hspec⟩
      · rw [herr] at h
        cases h
      · rw [hr''] at h
        obtain rfl : r'' = r' := Option.some.inj h
        exact ⟨hspec.kept, hspec.linked, hspec.closed⟩
    · have hreal := hl.made c hc hok.1
      rw [realizeFuel, realizeClass_realized _ hreal] at h
      obtain rfl : r = r' := Option.some.inj h
      exact ⟨hp, hl, hcl⟩
  · cases h

/-- **Every call keeps the links**, and the superclasses and metaclasses of realized classes
realized. -/
theorem linked_step {op : Op} (hl : Linked img r) (hcl : Closed img r) (h : step r op = some r') :
    Linked img r' ∧ Closed img r' := by
  cases op with
  | realize c =>
    exact (step_realize (P := fun _ => True) (fun _ _ _ _ _ _ _ _ _ _ => trivial) hl hcl trivial h).2
  | attachCategory cat =>
    rw [step, Option.ite_none_right_eq_some] at h
    obtain rfl := Option.some.inj h.2
    have h₁ := addMethods_updates (r := r) (c := cat.cls) cat.instanceMethods
    rw [attachCategory]
    cases ((addMethods r cat.cls cat.instanceMethods).classes cat.cls).isa with
    | none => exact ⟨hl.updates h₁, hcl.updates h₁⟩
    | some m =>
      have h₂ := addMethods_updates (r := addMethods r cat.cls cat.instanceMethods) (c := m)
        cat.classMethods
      exact ⟨(hl.updates h₁).updates h₂, (hcl.updates h₁).updates h₂⟩
  | allocateClassPair superclass name extraBytes =>
    rw [step, Option.ite_none_right_eq_some] at h
    obtain ⟨hsuper, h⟩ := h
    obtain rfl := Option.some.inj h
    rcases objcAllocateClassPair_allocates superclass name extraBytes with heq | ha
    · rw [heq]
      exact ⟨hl, hcl⟩
    · exact ⟨ha.linked hl hsuper, ha.closed hl hcl⟩
  | registerClassPair c =>
    rw [step, Option.ite_none_right_eq_some] at h
    have hu := objcRegisterDynamicClass_updates h.2 c
    exact ⟨hl.updates hu, hcl.updates hu⟩
  | addMethod c name imp =>
    rw [step, Option.ite_none_right_eq_some] at h
    obtain rfl := Option.some.inj h.2
    exact ⟨hl.updates (classAddMethod_updates name imp), hcl.updates (classAddMethod_updates name imp)⟩
  | addIvar c name size alignment =>
    rw [step, Option.ite_none_right_eq_some] at h
    obtain rfl := Option.some.inj h.2
    have hu := classAddIvar_updates (r := r) (c := c) name size alignment
    exact ⟨hl.updates hu, hcl.updates hu⟩
  | send c sel =>
    rw [step, Option.ite_none_right_eq_some] at h
    obtain ⟨⟨imp, r''⟩, hlookup, rfl⟩ := Option.map_eq_some_iff.mp h.2
    have hu := lookupAndCache_updates hlookup
    exact ⟨hl.updates hu, hcl.updates hu⟩

end Asteros.Objc.Classes
