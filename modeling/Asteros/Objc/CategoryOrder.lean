import Asteros.Objc.MethodCache
import Asteros.Objc.Startup

set_option autoImplicit false

/-!
# Which method of a category is found

The methods of a category are appended to those of its class, and a lookup takes the first method of
the name. So a category does not take the place of a method that the class has itself, and of several
categories with a method of the name the one that is attached first comes before the others; a method
of a superclass comes behind all. A category that comes when 256 have been noted is not attached.

## Main definitions

* `additions` — what a category adds to a class or a metaclass.
* `Overrides` — a lookup finds the method of the last category.
* `Unrivalled` — the condition: nothing before it has the name.

## Main results

* `overrides_iff` — the condition is exact.
* `not_overrides` — a method of the class stays.
-/

namespace Asteros.Objc.Startup

open Classes (Sel Imp RawMethod Method ClassRw Runtime Halt Category Images Linked Closed
  KeptByOne Realizes)
open Selectors

/-! ## What is to be found -/

/-- What a category adds to a class object, for the metaclasses of the classes. -/
def additions (isa : ℕ → Option ℕ) (cat : Category) (t : ℕ) : List RawMethod :=
  (if cat.cls = t then cat.instanceMethods else []) ++
    if isa cat.cls = some t then cat.classMethods else []

/-- What a list of categories adds. -/
def allAdditions (isa : ℕ → Option ℕ) (cats : List (Option Category)) (t : ℕ) : List RawMethod :=
  cats.flatMap fun cat => cat.elim [] fun cat => additions isa cat t

/-- The first method for a selector. -/
def firstFor (f : String → Sel) (sel : Sel) (ml : List RawMethod) : Option RawMethod :=
  ml.find? fun m => f m.name == sel

/-- The categories of a program that are noted, and so attached. -/
def Program.attached (program : Program) : List (Option Category) :=
  (catlists program.images).take maxPendingCategories

/-- The metaclasses of the classes of a program. -/
def Program.isa (program : Program) (c : ℕ) : Option ℕ := (program.img.classes c).isa

/-- One of the categories that are attached is the last with a method for a selector of a class
object: those before it, those behind it, and its method. -/
structure IsLast (program : Program) (f : String → Sel) (t : ℕ) (sel : Sel)
    (before after : List (Option Category)) (m : RawMethod) : Prop where
  /-- It is attached, between the others. -/
  split : ∃ cat, program.attached = before ++ some cat :: after ∧
    firstFor f sel (additions program.isa cat t) = some m
  /-- Those behind it have no method for the selector. -/
  last : firstFor f sel (allAdditions program.isa after t) = none

/-- A lookup finds the method of the last category that is attached and has one for the selector. -/
def Overrides (program : Program) (f : String → Sel) (r : Runtime) (t : ℕ) (sel : Sel) : Prop :=
  ∃ before after m, IsLast program f t sel before after m ∧
    (Classes.classLookupMethodT r t sel).map Method.imp = some m.imp

/-- The condition: a category that is attached has a method for the selector, and the last that has
one comes before all others: neither the class itself nor a category before it has a method for the
selector, or the first of these is the very same function. -/
def Unrivalled (program : Program) (f : String → Sel) (t : ℕ) (sel : Sel) : Prop :=
  ∃ before after m, IsLast program f t sel before after m ∧
    ∀ m' ∈ firstFor f sel
      ((program.img.classes t).ro.baseMethods ++ allAdditions program.isa before t),
      m'.imp = m.imp

/-! ## The methods of a class object -/

/-- The methods of a class object, if it is realized. -/
def methodsOf (r : Runtime) (c : ℕ) : Option (List Method) :=
  (r.classes c).rw.map ClassRw.methods

/-- Methods under the selectors of their names. -/
def named (f : String → Sel) (ml : List RawMethod) : List Method :=
  ml.map fun m => ⟨f m.name, m.imp⟩

/-- A realized class of an image has the methods of its own, and the selectors are the given ones. -/
structure Based (img : Images) (f : String → Sel) (r : Runtime) : Prop where
  /-- The selectors. -/
  selRegisterName_eq : r.selRegisterName = f
  /-- The methods. -/
  methods : ∀ d < img.count, r.isRealized d →
    methodsOf r d = some (named f (img.classes d).ro.baseMethods)

section

variable {img : Images} {f : String → Sel} {r r' : Runtime} {c d t : ℕ} {sel : Sel}

/-- The realization of one class. -/
lemma Based.keptByOne (c : ℕ) : KeptByOne img c (Based img f) := by
  intro r d r' h hl hd hreal _ _ hr
  refine ⟨hr.selRegisterName_eq.trans h.selRegisterName_eq, fun e he hreal' => ?_⟩
  rcases eq_or_ne e d with rfl | hne
  · rw [methodsOf, hr.self]
    simp [Classes.realizedClass, Classes.rwAddMethods_eq, hl.ro_eq e he hreal,
      h.selRegisterName_eq, named]
  · rw [methodsOf, hr.others e hne]
    exact h.methods e he (by rwa [hr.isRealized_iff hne] at hreal')

/-- Methods for a class object. -/
lemma methodsOf_addMethods (ml : List RawMethod) :
    methodsOf (Classes.addMethods r c ml) t =
      (methodsOf r t).map (· ++ if c = t then named r.selRegisterName ml else []) := by
  unfold Classes.addMethods
  rcases eq_or_ne t c with rfl | hne
  · rw [if_pos rfl]
    cases hrw : (r.classes t).rw with
    | none => simp [methodsOf, hrw]
    | some rw => simp [methodsOf, hrw, Classes.rwAddMethods_eq, named]
  · have hsame : (methodsOf r t).map (· ++ ([] : List Method)) = methodsOf r t := by simp
    rw [if_neg hne.symm, hsame]
    cases (r.classes c).rw with
    | none => rfl
    | some rw => rw [methodsOf, methodsOf, Classes.Runtime.setClass_of_ne hne]

/-- Methods for a class object leave the selectors. -/
lemma selRegisterName_addMethods (ml : List RawMethod) :
    (Classes.addMethods r c ml).selRegisterName = r.selRegisterName := by
  unfold Classes.addMethods
  split <;> rfl

/-- A category adds its methods. -/
lemma methodsOf_attachCategory (cat : Category) :
    methodsOf (Classes.attachCategory r cat) t =
      (methodsOf r t).map (· ++ named r.selRegisterName
        (additions (fun c => (r.classes c).isa) cat t)) := by
  have hisa : ((Classes.addMethods r cat.cls cat.instanceMethods).classes cat.cls).isa =
      (r.classes cat.cls).isa :=
    (Classes.addMethods_updates cat.instanceMethods).isa_eq cat.cls
  rw [Classes.attachCategory]
  obtain ⟨o, ho⟩ : ∃ o, (r.classes cat.cls).isa = o := ⟨_, rfl⟩
  simp only [hisa, additions, ho]
  cases o with
  | none =>
    simp only [Option.elim_none, methodsOf_addMethods, reduceCtorEq, if_false, List.append_nil]
    split <;> rfl
  | some m =>
    simp only [Option.elim_some, methodsOf_addMethods, selRegisterName_addMethods,
      Option.map_map]
    congr 1
    funext ms
    simp only [Function.comp_apply, List.append_assoc, Option.some_inj, named, List.map_append]
    split <;> split <;> rfl

/-- A category leaves the metaclasses, the superclasses and the selectors. -/
lemma attachCategory_frame (cat : Category) :
    (∀ c, ((Classes.attachCategory r cat).classes c).isa = (r.classes c).isa) ∧
      (Classes.attachCategory r cat).superclass = r.superclass ∧
      (Classes.attachCategory r cat).selRegisterName = r.selRegisterName := by
  have h₁ := Classes.addMethods_updates (r := r) (c := cat.cls) cat.instanceMethods
  rw [Classes.attachCategory]
  cases ((Classes.addMethods r cat.cls cat.instanceMethods).classes cat.cls).isa with
  | none => exact ⟨h₁.isa_eq, h₁.superclass_eq, selRegisterName_addMethods _⟩
  | some m =>
    have h₂ := Classes.addMethods_updates (c := m)
      (r := Classes.addMethods r cat.cls cat.instanceMethods) cat.classMethods
    refine ⟨fun c => (h₂.isa_eq c).trans (h₁.isa_eq c), h₂.superclass_eq.trans h₁.superclass_eq, ?_⟩
    exact (selRegisterName_addMethods _).trans (selRegisterName_addMethods _)

/-- **The categories add their methods**, in order. -/
lemma methodsOf_attachAll (cats : List (Option Category)) :
    methodsOf (attachAll r cats) t =
        (methodsOf r t).map (· ++ named r.selRegisterName
          (allAdditions (fun c => (r.classes c).isa) cats t)) ∧
      (attachAll r cats).superclass = r.superclass := by
  induction cats generalizing r with
  | nil =>
    refine ⟨?_, rfl⟩
    simp [attachAll, allAdditions, named]
  | cons cat cats ih =>
    cases cat with
    | none => exact ih
    | some cat =>
      obtain ⟨hisa, hsuper, hsel⟩ := attachCategory_frame (r := r) cat
      obtain ⟨hmethods, hrest⟩ := ih (r := Classes.attachCategory r cat)
      have hisa' : (fun c => ((Classes.attachCategory r cat).classes c).isa) =
          fun c => (r.classes c).isa := funext hisa
      rw [methodsOf_attachCategory, hsel, hisa', Option.map_map] at hmethods
      refine ⟨?_, hrest.trans hsuper⟩
      rw [show attachAll r (some cat :: cats) = attachAll (Classes.attachCategory r cat) cats from
        rfl, hmethods]
      congr 1
      funext ms
      simp [allAdditions, named]

/-- The first method of a list under the selectors of the names. -/
lemma find_named (f : String → Sel) (sel : Sel) (ml : List RawMethod) :
    ((named f ml).find? fun m => m.name == sel).map Method.imp =
      (firstFor f sel ml).map RawMethod.imp := by
  rw [named, firstFor, List.find?_map, Option.map_map]
  rfl

/-- The first of two lists has the first method, if it has one. -/
lemma firstFor_append (ml ml' : List RawMethod) :
    firstFor f sel (ml ++ ml') = (firstFor f sel ml).or (firstFor f sel ml') :=
  List.find?_append

/-- What two lists of categories add. -/
lemma allAdditions_append (isa : ℕ → Option ℕ) (cats cats' : List (Option Category)) (t : ℕ) :
    allAdditions isa (cats ++ cats') t = allAdditions isa cats t ++ allAdditions isa cats' t :=
  List.flatMap_append

/-- What a category and those behind it add. -/
lemma allAdditions_cons (isa : ℕ → Option ℕ) (cat : Category) (cats : List (Option Category))
    (t : ℕ) : allAdditions isa (some cat :: cats) t =
      additions isa cat t ++ allAdditions isa cats t :=
  List.flatMap_cons

/-- A class object that has a method for a selector answers with it. -/
lemma lookup_of_methods {ms : List Method} {m : Method} (hearlier : Ancestry.Earlier r.superclass)
    (hms : methodsOf r t = some ms) (hm : (ms.find? fun m => m.name == sel) = some m) :
    Classes.classLookupMethodT r t sel = some m := by
  rw [Classes.classLookupMethodT_eq hearlier, Classes.ownMethod_eq]
  rw [methodsOf] at hms
  rw [hms, Option.bind_some, hm, Option.some_or]

/-- A class object of a program has the methods of its own, and behind them those that the attached
categories add to it, under the selectors of the table or of any later one. -/
lemma methodsOf_objcInit {copies : Copies} (program : Program) {s : State} {table' : Table}
    (h : objcInit copies (start program.img) program.images = .ok s)
    (hext : Extends s.selectors table') (ht : t < program.img.count) :
    methodsOf s.runtime t = some (named (selOf copies table')
        ((program.img.classes t).ro.baseMethods ++
          allAdditions program.isa program.attached t)) ∧
      Ancestry.Earlier s.runtime.superclass := by
  obtain ⟨r, hrealize, hattach⟩ := objcInit_eq copies rfl h hext
  have hstart : withSel (start program.img).runtime (selOf copies table') =
      Classes.start program.img (selOf copies table') := rfl
  rw [hstart] at hrealize
  have hbased : Based program.img (selOf copies table')
      (Classes.start program.img (selOf copies table')) := by
    refine ⟨rfl, fun d _ hreal => ?_⟩
    rw [Classes.Runtime.isRealized, Classes.start, program.img.unrealized d] at hreal
    cases hreal
  rcases realizeAll_spec (fun c _ _ => Based.keptByOne c) program.classlist_class
    (Classes.linked_start program.img _) (Classes.closed_start program.img _) hbased with
    ⟨herr, -⟩ | ⟨r', hok, hbased', hl, hcl, hall⟩
  · rw [herr] at hrealize
    cases hrealize
  obtain rfl : r' = r := Except.ok.inj (hok.symm.trans hrealize)
  obtain ⟨hmethods, hsuper⟩ := methodsOf_attachAll (r := r') (t := t) program.attached
  have hown := hbased'.methods t ht (program.isRealized hl hcl hall ht)
  have hadd : allAdditions (fun c => (r'.classes c).isa) program.attached t =
      allAdditions program.isa program.attached t := by
    refine List.flatMap_congr fun cat hcat => ?_
    cases cat with
    | none => rfl
    | some cat =>
      have hlt := (program.category_class cat (List.mem_of_mem_take hcat)).1
      have hisa : (r'.classes cat.cls).isa = program.isa cat.cls := hl.isa_eq cat.cls hlt
      simp only [Option.elim_some, additions, hisa]
  constructor
  · change methodsOf (withSel s.runtime (selOf copies table')) t = _
    rw [hattach, ← Program.attached, hmethods, hown, hbased'.selRegisterName_eq, hadd]
    simp [named]
  · change Ancestry.Earlier (withSel s.runtime (selOf copies table')).superclass
    rw [hattach, ← Program.attached, hsuper]
    exact hl.earlier

/-- **What is found** for a selector for which a category has a method. -/
lemma lookup_objcInit {copies : Copies} (program : Program) {s : State}
    (h : objcInit copies (start program.img) program.images = .ok s)
    (ht : t < program.img.count) {before after : List (Option Category)} {m : RawMethod}
    (hlast : IsLast program (selOf copies s.selectors) t sel before after m) :
    (Classes.classLookupMethodT s.runtime t sel).map Method.imp =
      ((firstFor (selOf copies s.selectors) sel ((program.img.classes t).ro.baseMethods ++
        allAdditions program.isa before t)).or (some m)).map RawMethod.imp := by
  obtain ⟨hms, hearlier⟩ := methodsOf_objcInit program h (.refl _ s.selectors) ht
  obtain ⟨cat, hsplit, hcat⟩ := hlast.split
  have hfirst : firstFor (selOf copies s.selectors) sel ((program.img.classes t).ro.baseMethods ++
      allAdditions program.isa program.attached t) =
      (firstFor (selOf copies s.selectors) sel ((program.img.classes t).ro.baseMethods ++
        allAdditions program.isa before t)).or (some m) := by
    rw [hsplit, allAdditions_append, ← List.append_assoc, firstFor_append, allAdditions_cons,
      firstFor_append (additions program.isa cat t), hcat, Option.some_or]
  have hfind := find_named (selOf copies s.selectors) sel
    ((program.img.classes t).ro.baseMethods ++ allAdditions program.isa program.attached t)
  rw [hfirst] at hfind
  rw [← hfind]
  cases hm : (named (selOf copies s.selectors) ((program.img.classes t).ro.baseMethods ++
      allAdditions program.isa program.attached t)).find? fun m => m.name == sel with
  | none =>
    rw [hm] at hfind
    cases hor : firstFor (selOf copies s.selectors) sel
      ((program.img.classes t).ro.baseMethods ++ allAdditions program.isa before t) <;>
    · rw [hor] at hfind
      cases hfind
  | some m' => rw [lookup_of_methods hearlier hms hm]

/-- **The method of the last category is found exactly where nothing before it has the name.** For
every program, every class object, a class or a metaclass, and every selector: behind `_objc_init` a
lookup finds the method of the last category that is attached and has one for the selector, if and
only if neither the class itself nor a category before that one has a method for it, but for the
very same function. -/
theorem overrides_iff (copies : Copies) (program : Program) {s : State}
    (h : objcInit copies (start program.img) program.images = .ok s)
    (ht : t < program.img.count) (sel : Sel) :
    Overrides program (selOf copies s.selectors) s.runtime t sel ↔
      Unrivalled program (selOf copies s.selectors) t sel := by
  constructor
  · rintro ⟨before, after, m, hlast, hfound⟩
    refine ⟨before, after, m, hlast, fun m' hm' => ?_⟩
    rw [lookup_objcInit program h ht hlast, Option.mem_def.mp hm'] at hfound
    exact Option.some_inj.mp hfound
  · rintro ⟨before, after, m, hlast, hsame⟩
    refine ⟨before, after, m, hlast, ?_⟩
    rw [lookup_objcInit program h ht hlast]
    cases hfirst : firstFor (selOf copies s.selectors) sel
      ((program.img.classes t).ro.baseMethods ++ allAdditions program.isa before t) with
    | none => rfl
    | some m' =>
      rw [Option.some_or, Option.map_some, hsame m' hfirst]

end

/-- A category with a method that the class does not have, and one that the class has. -/
def greeting (name : String) : Category := ⟨0, [⟨name, 9⟩], []⟩

/-- A category adds `bar` to a class that has `foo`. -/
theorem overrides_added :
    ∃ s, objcInit Copies.adjacent (start Classes.rootAndSub)
        (rootAndSub (greeting "bar") rfl).images = .ok s ∧
      Overrides (rootAndSub (greeting "bar") rfl) (selOf Copies.adjacent s.selectors) s.runtime 0
        (selOf Copies.adjacent s.selectors "bar") := by
  obtain ⟨s, hs, hsel⟩ : ∃ s, objcInit Copies.adjacent (start Classes.rootAndSub)
      (rootAndSub (greeting "bar") rfl).images = .ok s ∧ s.selectors = ["foo", "bar"] :=
    ⟨_, rfl, by decide +kernel⟩
  refine ⟨s, hs, (overrides_iff Copies.adjacent _ hs (by decide) _).mpr ?_⟩
  rw [hsel]
  refine ⟨[], [], ⟨"bar", 9⟩, ⟨⟨greeting "bar", rfl, ?_⟩, rfl⟩, ?_⟩
  · decide +kernel
  · decide +kernel

/-- The method of the class stays, where a category has one of the same name. -/
theorem not_overrides :
    ∃ s, objcInit Copies.adjacent (start Classes.rootAndSub)
        (rootAndSub (greeting "foo") rfl).images = .ok s ∧
      (Classes.classLookupMethodT s.runtime 0 (selOf Copies.adjacent s.selectors "foo")).map
        Method.imp = some 1 ∧
      ¬Overrides (rootAndSub (greeting "foo") rfl) (selOf Copies.adjacent s.selectors) s.runtime 0
        (selOf Copies.adjacent s.selectors "foo") := by
  obtain ⟨s, hs, hfound⟩ : ∃ s, objcInit Copies.adjacent (start Classes.rootAndSub)
      (rootAndSub (greeting "foo") rfl).images = .ok s ∧
      (Classes.classLookupMethodT s.runtime 0 (selOf Copies.adjacent s.selectors "foo")).map
        Method.imp = some 1 :=
    ⟨_, rfl, by decide +kernel⟩
  refine ⟨s, hs, hfound, ?_⟩
  rintro ⟨before, after, m, ⟨⟨cat, hsplit, hcat⟩, -⟩, hother⟩
  have hmem : some cat ∈ [some (greeting "foo")] := by
    rw [show [some (greeting "foo")] = (rootAndSub (greeting "foo") rfl).attached from rfl, hsplit]
    exact List.mem_append_right before List.mem_cons_self
  obtain rfl : cat = greeting "foo" := Option.some_inj.mp (List.mem_singleton.mp hmem)
  have hm := List.mem_of_find?_eq_some hcat
  obtain rfl : m = ⟨"foo", 9⟩ := by
    simpa [additions, greeting, Program.isa, rootAndSub, Classes.rootAndSub,
      Classes.rootAndSubClasses, Classes.compiled] using hm
  rw [hfound] at hother
  exact absurd (Option.some_inj.mp hother) (by decide)

end Asteros.Objc.Startup
