import Asteros.Objc.CategoryOrder
import Asteros.Objc.SelectorNames

set_option autoImplicit false

/-!
# The order of the registration

The images can come in any order, and so can the classes of an image: a class is realized behind its
superclass, wherever that comes from, and before its metaclass. In the end every class object has
been realized once; the offsets of the instance variables and the instance sizes follow from those of
the superclass, and the methods are those that the compiler emitted. The table of classes has the
class before its metaclass, which has the same name, so `objc_getClass` finds the class.

There is room for 512 class objects, and for 4096 names; with more classes the process aborts.

## Main definitions

* `Registered` — every class object is realized once and found by its name.
* `SameClasses` — two runs end with the same classes.
* `Registering` — the invariant of the registration.

## Main results

* `orderIndependent` — two orders of the images end with the same classes.
* `not_orderIndependent` — with more classes the process aborts.
-/

namespace Asteros.Objc.Startup

open Classes (Sel Imp RawMethod Method ClassRw Runtime Halt Category Images Linked Closed
  KeptByOne Realizes NoRoom maxClasses)
open Selectors

/-! ## What is claimed -/

/-- Names as the compiler gives them: no two classes have the same, and a metaclass has that of its
class. -/
structure Named (img : Images) : Prop where
  /-- Classes. -/
  injective : ∀ c < img.count, ∀ d < img.count, (img.classes c).ro.isMeta = false →
    (img.classes d).ro.isMeta = false → (img.classes c).ro.name = (img.classes d).ro.name → c = d
  /-- Metaclasses. -/
  metaclass : ∀ c < img.count, (img.classes c).ro.isMeta = false →
    ∀ m, (img.classes c).isa = some m → (img.classes m).ro.name = (img.classes c).ro.name

/-- Every class object is realized, once, and a class is found by its name. -/
structure Registered (img : Images) (r : Runtime) : Prop where
  /-- Realized. -/
  realized : ∀ c < img.count, r.isRealized c
  /-- Once. -/
  once : r.registered.Nodup
  /-- No others. -/
  mem_registered : ∀ c, c ∈ r.registered ↔ c < img.count
  /-- The class, and not the metaclass. -/
  getClass : ∀ c < img.count, (img.classes c).ro.isMeta = false →
    Classes.objcGetClass r (img.classes c).ro.name = some c

/-- The methods of a class object, under the names of their selectors. -/
def methodsByName (copies : Copies) (s : State) (c : ℕ) : Option (List (String × Imp)) :=
  (methodsOf s.runtime c).map
    (List.map fun m => (selGetName copies s.selectors m.name, m.imp))

/-- Two runs end with the same classes. -/
structure SameClasses (img : Images) (s s' : State) : Prop where
  /-- The instance variables and their offsets. -/
  ivars : ∀ c < img.count, (s.runtime.classes c).ro.ivars = (s'.runtime.classes c).ro.ivars
  /-- The instance sizes. -/
  instanceSize : ∀ c < img.count,
    Classes.classGetInstanceSize s.runtime c = Classes.classGetInstanceSize s'.runtime c

/-- There is room in the selector table for the names of the methods and selector references. -/
def NamesFit (p : Program) : Prop := p.registeredNames.dedup.length ≤ objcMaxSelectors

/-- Two orders of the images: both are registered, with the same classes, and the same methods where
there is room for their names. -/
def OrderIndependent (copies copies' : Copies) (p p' : Program) : Prop :=
  ∃ s s', registerImages copies (start p.img) p.images = .ok s ∧
    registerImages copies' (start p.img) p'.images = .ok s' ∧
    Registered p.img s.runtime ∧ Registered p.img s'.runtime ∧ SameClasses p.img s s' ∧
    (NamesFit p → NamesFit p' →
      ∀ c < p.img.count, methodsByName copies s c = methodsByName copies' s' c)

/-! ## The invariant -/

/-- The realized class objects are registered, once, and a class before its metaclass; each is laid
out behind its superclass. -/
structure Registering (img : Images) (r : Runtime) : Prop where
  /-- Once. -/
  once : r.registered.Nodup
  /-- Those that are realized. -/
  mem_registered : ∀ c, c ∈ r.registered ↔ c < img.count ∧ r.isRealized c
  /-- There was room for them. -/
  room : r.registered.length ≤ maxClasses
  /-- The names stay. -/
  name_eq : ∀ c < img.count, (r.classes c).ro.name = (img.classes c).ro.name
  /-- The superclass is realized before. -/
  superclass : ∀ c < img.count, r.isRealized c → ∀ p, (img.classes c).superclass = some p →
    r.isRealized p
  /-- The instance variables are laid out behind those of the superclass. -/
  laidOut : ∀ c < img.count, r.isRealized c →
    ((r.classes c).ro.ivars, Classes.classGetInstanceSize r c) = Classes.layoutIvars
      ((img.classes c).superclass.elim 0 (Classes.classGetInstanceSize r)) (img.classes c).ro.ivars
  /-- The class is realized before the metaclass. -/
  ofClass : ∀ m < img.count, (img.classes m).ro.isMeta = true → r.isRealized m →
    ∃ c < img.count, (img.classes c).ro.isMeta = false ∧ (img.classes c).isa = some m ∧
      r.isRealized c
  /-- The class is found. -/
  getClass : ∀ c < img.count, (img.classes c).ro.isMeta = false → r.isRealized c →
    Classes.objcGetClass r (img.classes c).ro.name = some c

section

variable {img : Images} {r r' r₁ r₂ : Runtime} {c c₀ d e : ℕ} {copies : Copies}

/-- The superclasses of a class are classes. -/
lemma class_of_mem_chain (hl : Linked img r) (hc : c < img.count)
    (hclass : (img.classes c).ro.isMeta = false) (hd : d ∈ r.chain c) :
    (img.classes d).ro.isMeta = false := by
  induction c using Ancestry.induction hl.earlier with
  | hstep c ih =>
    rcases (Ancestry.mem_chain_iff hl.earlier).mp hd with rfl | ⟨p, hp, hdp⟩
    · exact hclass
    · have himg : (img.classes c).superclass = some p := (hl.superclass_eq c hc).symm.trans hp
      exact ih p hp ((img.superclass_lt c p himg).trans hc) (img.superclass_class c p himg hclass)
        hdp

/-- Before the first image no class is realized. -/
lemma registering_start (img : Images) (f : String → Sel) :
    Registering img (Classes.start img f) := by
  have hnone : ∀ c, (Classes.start img f).isRealized c = false := fun c => by
    simp [Runtime.isRealized, Classes.start, img.unrealized c]
  have hno : ∀ c {Q : Prop}, (Classes.start img f).isRealized c → Q := fun c Q hreal => by
    rw [hnone c] at hreal
    cases hreal
  refine ⟨List.nodup_nil, fun c => ⟨fun h => absurd h List.not_mem_nil, fun h => hno c h.2⟩, Nat.zero_le _, fun _ _ => rfl, ?_,
    ?_, ?_, ?_⟩
  · exact fun c _ hreal => hno c hreal
  · exact fun c _ hreal => hno c hreal
  · exact fun c _ _ hreal => hno c hreal
  · exact fun c _ _ hreal => hno c hreal

/-- The selectors are not asked for. -/
lemma Registering.of_withSel {f : String → Sel} (h : Registering img (withSel r f)) :
    Registering img r :=
  ⟨h.once, h.mem_registered, h.room, h.name_eq, h.superclass, h.laidOut, h.ofClass, h.getClass⟩

/-- No class object that is registered has the name of a class that is not. -/
lemma Registering.getClass_eq_none (h : Registering img r) (hnamed : Named img)
    (hd : d < img.count) (hclass : (img.classes d).ro.isMeta = false)
    (hreal : r.isRealized d = false) :
    Classes.objcGetClass r (img.classes d).ro.name = none := by
  rw [Classes.objcGetClass, List.find?_eq_none]
  intro x hx heq
  obtain ⟨hxc, hxreal⟩ := (h.mem_registered x).mp hx
  have hname : (img.classes x).ro.name = (img.classes d).ro.name := by
    rw [← h.name_eq x hxc]
    exact eq_of_beq heq
  -- the class of that name is realized
  obtain ⟨e, he, heclass, hename, hereal⟩ : ∃ e < img.count, (img.classes e).ro.isMeta = false ∧
      (img.classes e).ro.name = (img.classes d).ro.name ∧ r.isRealized e := by
    cases hmeta : (img.classes x).ro.isMeta with
    | false => exact ⟨x, hxc, hmeta, hname, hxreal⟩
    | true =>
      obtain ⟨e, he, heclass, hisa, hereal⟩ := h.ofClass x hxc hmeta hxreal
      exact ⟨e, he, heclass, (hnamed.metaclass e he heclass x hisa).symm.trans hname, hereal⟩
  obtain rfl := hnamed.injective e he d hd heclass hclass hename
  rw [hreal] at hereal
  cases hereal

/-- What is found behind the registration of one more class object. -/
lemma Registering.getClass_realizes (h : Registering img r) (hd : d < img.count)
    (hr : Realizes r d r') (hname : ∀ c < img.count, (r'.classes c).ro.name =
      (img.classes c).ro.name) (name : String) :
    Classes.objcGetClass r' name = (Classes.objcGetClass r name).or
      (if (img.classes d).ro.name = name then some d else none) := by
  have hold : r.registered.find? (fun c => (r'.classes c).ro.name == name) =
      Classes.objcGetClass r name := by
    rw [Classes.objcGetClass, ← List.head?_filter, ← List.head?_filter]
    congr 1
    refine List.filter_congr fun c hc => ?_
    have hlt := ((h.mem_registered c).mp hc).1
    rw [hname c hlt, h.name_eq c hlt]
  rw [Classes.objcGetClass, hr.registered_eq, List.find?_append, hold]
  congr 1
  rw [List.find?_singleton, hname d hd]
  simp only [beq_iff_eq]

/-- **The realization of one class**, behind its superclass, and for a metaclass behind its class,
keeps the invariant. -/
theorem Registering.keptByOne (hnamed : Named img) (hc₀ : c₀ < img.count)
    (hclass₀ : (img.classes c₀).ro.isMeta = false) : KeptByOne img c₀ (Registering img) := by
  intro r d r' h hl hd hreal hsuper hwhich hr
  have hself := hr.self
  have hro : (r.classes d).ro = (img.classes d).ro := hl.ro_eq d hd hreal
  have hsupd : (r.classes d).superclass = (img.classes d).superclass := hl.superclass_eq d hd
  have hname : ∀ c < img.count, (r'.classes c).ro.name = (img.classes c).ro.name := by
    intro c hc
    rcases eq_or_ne c d with rfl | hne
    · rw [hself, Classes.realizedClass, hro]
    · rw [hr.others c hne]
      exact h.name_eq c hc
  have hsize : ∀ c, c ≠ d →
      Classes.classGetInstanceSize r' c = Classes.classGetInstanceSize r c := by
    intro c hne
    rw [Classes.classGetInstanceSize, hr.others c hne, Classes.classGetInstanceSize]
  have hne_of_real : ∀ c, r.isRealized c → c ≠ d := by
    rintro c hc rfl
    rw [hreal] at hc
    cases hc
  have hsupReal : ∀ c < img.count, r'.isRealized c → ∀ p, (img.classes c).superclass = some p →
      r.isRealized p := by
    intro c hc hcreal p hp
    rcases eq_or_ne c d with rfl | hne
    · exact hsuper p (hsupd.trans hp)
    · rw [hr.isRealized_iff hne] at hcreal
      exact h.superclass c hc hcreal p hp
  have hsupSize : ∀ c < img.count, r'.isRealized c →
      (img.classes c).superclass.elim 0 (Classes.classGetInstanceSize r') =
        (img.classes c).superclass.elim 0 (Classes.classGetInstanceSize r) := by
    intro c hc hcreal
    cases hp : (img.classes c).superclass with
    | none => rfl
    | some p => exact hsize p (hne_of_real p (hsupReal c hc hcreal p hp))
  refine ⟨?once, ?mem_registered, ?room, hname, ?superclass, ?laidOut, ?ofClass, ?getClass⟩
  case once =>
    rw [hr.registered_eq]
    refine List.nodup_append'.mpr ⟨h.once, List.nodup_singleton d, ?_⟩
    refine List.disjoint_singleton.mpr fun hmem => ?_
    exact hne_of_real d ((h.mem_registered d).mp hmem).2 rfl
  case mem_registered =>
    intro c
    rw [hr.registered_eq, List.mem_append, List.mem_singleton, h.mem_registered]
    constructor
    · rintro (⟨hc, hcreal⟩ | rfl)
      · exact ⟨hc, hr.isRealized_mono hcreal⟩
      · exact ⟨hd, hr.isRealized_self⟩
    · rintro ⟨hc, hcreal⟩
      rcases eq_or_ne c d with rfl | hne
      · exact .inr rfl
      · exact .inl ⟨hc, hr.isRealized_iff hne ▸ hcreal⟩
  case room =>
    have hroom := hr.room
    rw [hr.registered_eq, List.length_append, List.length_singleton]
    omega
  case superclass =>
    exact fun c hc hcreal p hp => hr.isRealized_mono (hsupReal c hc hcreal p hp)
  case laidOut =>
    intro c hc hcreal
    rw [hsupSize c hc hcreal]
    rcases eq_or_ne c d with rfl | hne
    · rw [Classes.classGetInstanceSize, hself, Classes.realizedClass, hsupd, hro,
        Classes.rwAddMethods_eq]
      rfl
    · rw [hsize c hne, hr.others c hne]
      exact h.laidOut c hc (hr.isRealized_iff hne ▸ hcreal)
  case ofClass =>
    intro m hm hmeta hmreal
    rcases eq_or_ne m d with rfl | hne
    · rcases hwhich with hmem | ⟨-, -, e, he, heclass, hisa, hereal⟩
      · rw [class_of_mem_chain hl hc₀ hclass₀ hmem] at hmeta
        cases hmeta
      · exact ⟨e, he, heclass, hisa, hr.isRealized_mono hereal⟩
    · obtain ⟨e, he, heclass, hisa, hereal⟩ := h.ofClass m hm hmeta (hr.isRealized_iff hne ▸ hmreal)
      exact ⟨e, he, heclass, hisa, hr.isRealized_mono hereal⟩
  case getClass =>
    intro c hc hclass hcreal
    rw [h.getClass_realizes hd hr hname]
    rcases eq_or_ne c d with rfl | hne
    · rw [h.getClass_eq_none hnamed hd hclass hreal, if_pos rfl]
      rfl
    · rw [h.getClass c hc hclass (hr.isRealized_iff hne ▸ hcreal)]
      rfl

/-! ## The end of the registration -/

/-- There is room for as many class objects as the table has places. -/
lemma Registering.count_gt {P : Runtime → Prop} (h : NoRoom img fun r => P r ∧ Registering img r) :
    maxClasses < img.count := by
  obtain ⟨r, d, ⟨-, hreg⟩, hd, hreal, hfull⟩ := h
  have hnew : d ∉ r.registered := fun hmem => by
    rw [((hreg.mem_registered d).mp hmem).2] at hreal
    cases hreal
  have hsub : d :: r.registered ⊆ List.range img.count := by
    refine List.cons_subset.mpr ⟨List.mem_range.mpr hd, fun c hc => ?_⟩
    exact List.mem_range.mpr ((hreg.mem_registered c).mp hc).1
  have hle := (List.subperm_of_subset (List.nodup_cons.mpr ⟨hnew, hreg.once⟩) hsub).length_le
  rw [List.length_cons, List.length_range] at hle
  omega

/-- Where all class objects are registered there are no more than the table has places. -/
lemma Registering.count_le (h : Registering img r) (hreal : ∀ c < img.count, r.isRealized c) :
    img.count ≤ maxClasses := by
  have hsub : List.range img.count ⊆ r.registered := fun c hc => by
    rw [List.mem_range] at hc
    exact (h.mem_registered c).mpr ⟨hc, hreal c hc⟩
  have hle := (List.subperm_of_subset List.nodup_range hsub).length_le
  rw [List.length_range] at hle
  exact hle.trans h.room

/-- **The images of a program are registered**, with all class objects and their own methods, unless
there are more class objects than the table has places. -/
theorem Program.registers (program : Program) (hnamed : Named program.img) (copies : Copies) :
    (registerImages copies (start program.img) program.images = .error .tooManyClasses ∧
      maxClasses < program.img.count) ∨
    ∃ s, registerImages copies (start program.img) program.images = .ok s ∧
      Registering program.img s.runtime ∧
      (∀ c < program.img.count, s.runtime.isRealized c) ∧
      ∀ table', Extends s.selectors table' → ∀ c < program.img.count,
        methodsOf s.runtime c =
          some (named (selOf copies table') (program.img.classes c).ro.baseMethods) := by
  -- the realization of all classes with given selectors
  have hall : ∀ f : String → Sel,
      (realizeAll (Classes.start program.img f) (classlists program.images) =
        .error .tooManyClasses ∧ maxClasses < program.img.count) ∨
      ∃ r, realizeAll (Classes.start program.img f) (classlists program.images) = .ok r ∧
        Based program.img f r ∧ Registering program.img r ∧
        ∀ c < program.img.count, r.isRealized c := by
    intro f
    have hbased : Based program.img f (Classes.start program.img f) := by
      refine ⟨rfl, fun d _ hreal => ?_⟩
      rw [Runtime.isRealized, Classes.start, program.img.unrealized d] at hreal
      cases hreal
    rcases realizeAll_spec (P := fun r => Based program.img f r ∧ Registering program.img r)
      (fun c hc hclass => keptByOne_and (Based.keptByOne c)
        (Registering.keptByOne hnamed hc hclass))
      program.classlist_class (Classes.linked_start program.img f)
      (Classes.closed_start program.img f) ⟨hbased, registering_start program.img f⟩ with
      ⟨herr, hfull⟩ | ⟨r, hok, hkept, hl, hcl, hreal⟩
    · exact .inl ⟨herr, Registering.count_gt hfull⟩
    · exact .inr ⟨r, hok, hkept.1, hkept.2, fun c hc => program.isRealized hl hcl hreal hc⟩
  obtain ⟨hok, herror⟩ := registerImages_eq copies (start program.img) program.images
  cases hreg : registerImages copies (start program.img) program.images with
  | error e =>
    obtain ⟨table, -, hrealize⟩ := herror e hreg
    have hrealize : realizeAll (Classes.start program.img (selOf copies table))
        (classlists program.images) = .error e := hrealize table (.refl _ table)
    rcases hall (selOf copies table) with ⟨herr, hfull⟩ | ⟨r, hok', -⟩
    · rw [herr] at hrealize
      cases hrealize
      exact .inl ⟨rfl, hfull⟩
    · rw [hok'] at hrealize
      cases hrealize
  | ok s =>
    obtain ⟨-, hrealize, -⟩ := hok s hreg
    have hfinal : ∀ table', Extends s.selectors table' →
        Based program.img (selOf copies table') (withSel s.runtime (selOf copies table')) ∧
          Registering program.img s.runtime ∧
          ∀ c < program.img.count, s.runtime.isRealized c := by
      intro table' hext
      have hrealize : realizeAll (Classes.start program.img (selOf copies table'))
          (classlists program.images) = .ok (withSel s.runtime (selOf copies table')) :=
        hrealize table' hext
      rcases hall (selOf copies table') with ⟨herr, -⟩ | ⟨r, hok', hbased, hregister, hreal⟩
      · rw [herr] at hrealize
        cases hrealize
      · obtain rfl := Except.ok.inj (hok'.symm.trans hrealize)
        exact ⟨hbased, hregister.of_withSel, hreal⟩
    obtain ⟨-, hregister, hreal⟩ := hfinal s.selectors (.refl _ _)
    refine .inr ⟨s, rfl, hregister, hreal, fun table' hext c hc => ?_⟩
    exact (hfinal table' hext).1.methods c hc (hreal c hc)

/-- The methods have the names that the compiler gave them, where there is room for all names. -/
lemma Program.methodsByName_eq (program : Program) {s : State}
    (hreg : registerImages copies (start program.img) program.images = .ok s)
    (hnames : NamesFit program)
    (hmethods : ∀ table', Extends s.selectors table' → ∀ c < program.img.count,
      methodsOf s.runtime c =
        some (named (selOf copies table') (program.img.classes c).ro.baseMethods))
    (hc : c < program.img.count) :
    methodsByName copies s c =
      some ((program.img.classes c).ro.baseMethods.map fun m => (m.name, m.imp)) := by
  obtain ⟨hwithin, -⟩ := program.bases.registerImages ⟨List.nodup_nil, List.nil_subset _⟩
    (List.subset_append_left _ _) program.classlist_lt hreg
  have hmem : ∀ m ∈ (program.img.classes c).ro.baseMethods, m.name ∈ s.selectors := by
    intro m hm
    refine hwithin.mem_of_settled hnames (program.bases.mem c hc m hm)
      (settled_of_stable copies fun table' hext => ?_)
    have heq := (hmethods table' hext c hc).symm.trans (hmethods _ (.refl _ _) c hc)
    exact congrArg Method.name (List.map_inj_left.mp (Option.some_inj.mp heq) m hm)
  rw [methodsByName, hmethods _ (.refl _ _) c hc, Option.map_some, named, List.map_map]
  refine congrArg some (List.map_congr_left fun m hm => ?_)
  simp only [Function.comp_apply, selGetName_selOf (hmem m hm)]

/-- **The offsets and the instance sizes follow from those of the superclass.** -/
theorem Registering.layout_eq (h₁ : Registering img r₁) (h₂ : Registering img r₂)
    (hreal₁ : ∀ c < img.count, r₁.isRealized c) (hreal₂ : ∀ c < img.count, r₂.isRealized c)
    (hc : c < img.count) :
    ((r₁.classes c).ro.ivars, Classes.classGetInstanceSize r₁ c) =
      ((r₂.classes c).ro.ivars, Classes.classGetInstanceSize r₂ c) := by
  induction c using Ancestry.induction img.superclass_lt with
  | hstep c ih =>
    rw [h₁.laidOut c hc (hreal₁ c hc), h₂.laidOut c hc (hreal₂ c hc)]
    cases hp : (img.classes c).superclass with
    | none => rfl
    | some p =>
      have hsize := congrArg Prod.snd (ih p hp ((img.superclass_lt c p hp).trans hc))
      dsimp only at hsize
      rw [Option.elim_some, Option.elim_some, hsize]

/-- What the registration of all images leaves. -/
lemma Registering.registered (h : Registering img r) (hreal : ∀ c < img.count, r.isRealized c) :
    Registered img r where
  realized := hreal
  once := h.once
  mem_registered c := by
    rw [h.mem_registered]
    exact ⟨fun hmem => hmem.1, fun hc => ⟨hc, hreal c hc⟩⟩
  getClass c hc hclass := h.getClass c hc hclass (hreal c hc)

/-- **Two orders of the images end with the same classes**, as long as there is room for the class
objects: every class object is realized once, the offsets and the instance sizes are the same, and
each class is found by its name. Where there is room for the names, the methods are the same. -/
theorem orderIndependent (copies copies' : Copies) (p p' : Program) (himg : p'.img = p.img)
    (hnamed : Named p.img) (hcount : p.img.count ≤ maxClasses) :
    OrderIndependent copies copies' p p' := by
  rcases p.registers hnamed copies with ⟨-, hfull⟩ | ⟨s, hs, hregister, hreal, hmethods⟩
  · exact absurd hcount (Nat.not_le.mpr hfull)
  rcases p'.registers (himg ▸ hnamed) copies' with
    ⟨-, hfull⟩ | ⟨s', hs', hregister', hreal', hmethods'⟩
  · exact absurd (himg ▸ hcount) (Nat.not_le.mpr hfull)
  have hby := fun hnames c hc => p.methodsByName_eq (c := c) hs hnames hmethods hc
  have hby' := fun hnames c hc => p'.methodsByName_eq (c := c) hs' hnames hmethods' hc
  rw [himg] at hs' hregister' hreal' hby'
  refine ⟨s, s', hs, hs', hregister.registered hreal, hregister'.registered hreal', ?_, ?_⟩
  · constructor
    · intro c hc
      exact congrArg Prod.fst (hregister.layout_eq hregister' hreal hreal' hc)
    · intro c hc
      exact congrArg Prod.snd (hregister.layout_eq hregister' hreal hreal' hc)
  · intro hnames hnames' c hc
    rw [hby hnames c hc, hby' hnames' c hc]

end

/-- The metaclasses of the root class and its subclass. -/
lemma metaclass_of_rootAndSub : ∀ m < Classes.rootAndSub.count,
    (Classes.rootAndSub.classes m).ro.isMeta = true → ∃ c < Classes.rootAndSub.count,
      (Classes.rootAndSub.classes c).ro.isMeta = false ∧
        (Classes.rootAndSub.classes c).isa = some m :=
  (rootAndSub (greeting "bar") rfl).metaclass_of

/-- The root class and its subclass in two images, the root class first. -/
def rootFirst : Program where
  img := Classes.rootAndSub
  images := [some ⟨["bar"], [0], []⟩, some ⟨["foo"], [2], []⟩]
  classlist_class c hc := by
    have hmem : c = 0 ∨ c = 2 := by simpa [classlists] using hc
    rcases hmem with rfl | rfl <;> decide
  classlist_all c hc hclass := by
    change c < 4 at hc
    interval_cases c <;> simp_all [classlists, Classes.rootAndSub, Classes.rootAndSubClasses,
      Classes.compiled]
  metaclass_of := metaclass_of_rootAndSub
  category_class cat hcat := by
    have hnone : some cat ∉ catlists [some ⟨["bar"], [0], []⟩, some ⟨["foo"], [2], []⟩] := nofun
    exact absurd hcat hnone

/-- The names of the root class and its subclass. -/
lemma named_rootAndSub : Named Classes.rootAndSub where
  injective c hc d hd hclass hclass' hname := by
    change c < 4 at hc
    change d < 4 at hd
    interval_cases c <;> interval_cases d <;> simp_all [Classes.rootAndSub,
      Classes.rootAndSubClasses, Classes.compiled]
  metaclass c hc hclass m hm := by
    change c < 4 at hc
    interval_cases c <;> simp_all [Classes.rootAndSub, Classes.rootAndSubClasses,
      Classes.compiled]
    all_goals subst hm; rfl

/-- The subclass first, and the root class first; there is room for the names. -/
theorem orderIndependent_rootAndSub :
    OrderIndependent Copies.adjacent Copies.adjacent (rootAndSub (greeting "bar") rfl) rootFirst ∧
      NamesFit (rootAndSub (greeting "bar") rfl) ∧ NamesFit rootFirst := by
  refine ⟨?_, ?_, ?_⟩
  · exact orderIndependent Copies.adjacent Copies.adjacent (rootAndSub (greeting "bar") rfl)
      rootFirst rfl named_rootAndSub (by decide)
  · unfold NamesFit
    decide +kernel
  · unfold NamesFit
    decide +kernel

/-- The name of one of many classes. -/
def letters (i : ℕ) : String := String.ofList (List.replicate i 'A')

/-- Root classes, each with its metaclass behind it. -/
def manyRootsClasses (c : ℕ) : Classes.ClassT :=
  if c % 2 = 0 then Classes.compiled false (letters (c / 2)) (c + 1) none [] []
  else Classes.compiled true (letters (c / 2)) c (some (c - 1)) [] []

/-- A class. -/
lemma manyRootsClasses_even (i : ℕ) :
    manyRootsClasses (2 * i) = Classes.compiled false (letters i) (2 * i + 1) none [] [] := by
  rw [manyRootsClasses, if_pos (by omega), Nat.mul_div_cancel_left i (by decide)]

/-- A metaclass. -/
lemma manyRootsClasses_odd (i : ℕ) :
    manyRootsClasses (2 * i + 1) =
      Classes.compiled true (letters i) (2 * i + 1) (some (2 * i)) [] [] := by
  have hdiv : (2 * i + 1) / 2 = i := by omega
  rw [manyRootsClasses, if_neg (by omega), hdiv, Nat.add_sub_cancel]

/-- 257 root classes. -/
def manyRootsImages : Images where
  count := 514
  classes := manyRootsClasses
  unrealized c := by
    obtain ⟨i, rfl | rfl⟩ := Nat.even_or_odd' c
    · rw [manyRootsClasses_even]; rfl
    · rw [manyRootsClasses_odd]; rfl
  uncached c := by
    obtain ⟨i, rfl | rfl⟩ := Nat.even_or_odd' c
    · rw [manyRootsClasses_even]; rfl
    · rw [manyRootsClasses_odd]; rfl
  superclass_lt c p h := by
    obtain ⟨i, rfl | rfl⟩ := Nat.even_or_odd' c
    · rw [manyRootsClasses_even] at h
      cases h
    · rw [manyRootsClasses_odd] at h
      cases h
      exact Nat.lt_succ_self _
  superclass_class c p h hclass := by
    obtain ⟨i, rfl | rfl⟩ := Nat.even_or_odd' c
    · rw [manyRootsClasses_even] at h
      cases h
    · rw [manyRootsClasses_odd] at hclass
      cases hclass
  isa_lt c hc m h := by
    obtain ⟨i, rfl | rfl⟩ := Nat.even_or_odd' c
    · rw [manyRootsClasses_even] at h
      cases h
      omega
    · rw [manyRootsClasses_odd] at h
      cases h
      exact hc
  metaclass c hc hclass := by
    obtain ⟨i, rfl | rfl⟩ := Nat.even_or_odd' c
    · refine ⟨2 * i + 1, ?_, ?_⟩
      · rw [manyRootsClasses_even]; rfl
      · rw [manyRootsClasses_odd]; rfl
    · rw [manyRootsClasses_odd] at hclass
      cases hclass
  metaclass_superclass c hc hclass m hm := by
    obtain ⟨i, rfl | rfl⟩ := Nat.even_or_odd' c
    · rw [manyRootsClasses_even] at hm ⊢
      cases hm
      rw [manyRootsClasses_odd]
      rfl
    · rw [manyRootsClasses_odd] at hclass
      cases hclass
  metaclass_isa c hc hclass m hm := by
    obtain ⟨i, rfl | rfl⟩ := Nat.even_or_odd' c
    · rw [manyRootsClasses_even] at hm ⊢
      cases hm
      rw [manyRootsClasses_odd]
      rfl
    · rw [manyRootsClasses_odd] at hclass
      cases hclass
  metaclass_ivars c hc hmeta := by
    obtain ⟨i, rfl | rfl⟩ := Nat.even_or_odd' c
    · rw [manyRootsClasses_even] at hmeta
      cases hmeta
    · rw [manyRootsClasses_odd]; rfl

/-- They have different names. -/
lemma named_manyRoots : Named manyRootsImages where
  injective c _ d _ hclass hclass' hname := by
    obtain ⟨i, rfl | rfl⟩ := Nat.even_or_odd' c
    · obtain ⟨j, rfl | rfl⟩ := Nat.even_or_odd' d
      · have hletters : letters i = letters j := by
          have h : (manyRootsClasses (2 * i)).ro.name = (manyRootsClasses (2 * j)).ro.name := hname
          rwa [manyRootsClasses_even, manyRootsClasses_even] at h
        have hlen := congrArg List.length (String.ofList_injective hletters)
        rw [List.length_replicate, List.length_replicate] at hlen
        rw [hlen]
      · have h : (manyRootsClasses (2 * j + 1)).ro.isMeta = false := hclass'
        rw [manyRootsClasses_odd] at h
        cases h
    · have h : (manyRootsClasses (2 * i + 1)).ro.isMeta = false := hclass
      rw [manyRootsClasses_odd] at h
      cases h
  metaclass c _ hclass m hm := by
    obtain ⟨i, rfl | rfl⟩ := Nat.even_or_odd' c
    · have h : (manyRootsClasses (2 * i)).isa = some m := hm
      rw [manyRootsClasses_even] at h
      cases h
      change (manyRootsClasses (2 * i + 1)).ro.name = (manyRootsClasses (2 * i)).ro.name
      rw [manyRootsClasses_odd, manyRootsClasses_even]
      rfl
    · have h : (manyRootsClasses (2 * i + 1)).ro.isMeta = false := hclass
      rw [manyRootsClasses_odd] at h
      cases h

/-- 257 root classes in one image. -/
def manyRoots : Program where
  img := manyRootsImages
  images := [some ⟨[], (List.range 257).map (2 * ·), []⟩]
  classlist_class c hc := by
    have hmem : ∃ i < 257, 2 * i = c := by simpa [classlists] using hc
    obtain ⟨i, hi, rfl⟩ := hmem
    change 2 * i < 514 ∧ (manyRootsClasses (2 * i)).ro.isMeta = false
    rw [manyRootsClasses_even]
    exact ⟨by omega, rfl⟩
  classlist_all c hc hclass := by
    change c < 514 at hc
    change (manyRootsClasses c).ro.isMeta = false at hclass
    obtain ⟨i, rfl | rfl⟩ := Nat.even_or_odd' c
    · have hi : i < 257 := by omega
      simpa [classlists] using hi
    · rw [manyRootsClasses_odd] at hclass
      cases hclass
  metaclass_of m hm hmeta := by
    change m < 514 at hm
    change (manyRootsClasses m).ro.isMeta = true at hmeta
    obtain ⟨i, rfl | rfl⟩ := Nat.even_or_odd' m
    · rw [manyRootsClasses_even] at hmeta
      cases hmeta
    · refine ⟨2 * i, ?_⟩
      change 2 * i < 514 ∧ (manyRootsClasses (2 * i)).ro.isMeta = false ∧
        (manyRootsClasses (2 * i)).isa = some (2 * i + 1)
      rw [manyRootsClasses_even]
      exact ⟨by omega, rfl, rfl⟩
  category_class cat hcat := by
    have hnone : some cat ∉ catlists [some ⟨[], (List.range 257).map (2 * ·), []⟩] := nofun
    exact absurd hcat hnone

/-- With 257 classes and as many metaclasses the process aborts. -/
theorem not_orderIndependent :
    Named manyRoots.img ∧
      registerImages Copies.adjacent (start manyRoots.img) manyRoots.images =
        .error .tooManyClasses ∧
      ¬OrderIndependent Copies.adjacent Copies.adjacent manyRoots manyRoots := by
  have hfails : registerImages Copies.adjacent (start manyRoots.img) manyRoots.images =
      .error .tooManyClasses := by
    rcases manyRoots.registers named_manyRoots Copies.adjacent with ⟨herr, -⟩ | ⟨s, -, h, hreal, -⟩
    · exact herr
    · exact absurd (h.count_le hreal) (by decide)
  refine ⟨named_manyRoots, hfails, ?_⟩
  rintro ⟨s, s', hs, -⟩
  rw [hfails] at hs
  cases hs

end Asteros.Objc.Startup
