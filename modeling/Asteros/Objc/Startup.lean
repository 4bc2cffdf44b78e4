import Asteros.Objc.Realization
import Asteros.Objc.Selectors
import Mathlib.Tactic.IntervalCases

set_option autoImplicit false

/-!
# The images are registered

`init.c` and `class.c`: `_objc_init` registers the images one after the other, and then attaches
their categories. An image is registered by registering the names of its selector references,
realizing its classes, and noting its categories, of which 256 can be noted. Each method that a class
or a category adds is added under the selector that `sel_registerName` gives its name at that moment;
the table of the selectors grows on the way.

A name keeps the selector it gets. The classes that come out are therefore those that come out where
every name has the selector of the table in the end; so what is known of the realization with given
selectors is known of this one.

## Main definitions

* `realizeClass`, `objcRegisterImage`, `objcAttachCategories`, `objcInit` — the functions.
* `realizeAll`, `attachAll` — the same with given selectors.

## Main results

* `realizeClass_eq`, `objcInit_eq` — the selectors are those of the table in the end.
-/

namespace Asteros.Objc.Startup

open Classes (Sel Imp RawMethod Method ClassRw Runtime Halt Category Images maxClasses)
open Selectors

/-! ## The functions -/

/-- The Objective-C sections of an image. -/
structure Image where
  /-- `__objc_selrefs`: the names. -/
  selrefs : List String
  /-- `__objc_classlist`. -/
  classlist : List ℕ
  /-- `__objc_catlist`; `none` is a category whose `cls` is null. -/
  catlist : List (Option Category)

/-- `MAX_PENDING_CATEGORIES`. -/
def maxPendingCategories : ℕ := 256

/-- The runtime with its tables; the selectors are in the table. -/
structure State where
  /-- `g_selectors`. -/
  selectors : Table
  /-- The classes. -/
  runtime : Runtime
  /-- `g_pending_cats`. -/
  pendingCats : List (Option Category)

variable (copies : Copies)

/-- `rw_add_methods`. -/
def rwAddMethods : Table → ClassRw → List RawMethod → ClassRw × Table
  | table, rw, [] => (rw, table)
  | table, rw, m :: ml =>
    let name := selRegisterName copies table (some m.name)
    rwAddMethods name.2 (Classes.rwAppendMethod rw name.1 m.imp) ml

/-- The part of `realize_class` between its two recursive calls; `none` is the `abort`. -/
def realizeOne (table : Table) (r : Runtime) (c : ℕ) : Option Runtime × Table :=
  let ct := r.classes c
  let layout := Classes.layoutIvars
    (ct.superclass.elim 0 (Classes.classGetInstanceSize r)) ct.ro.ivars
  let added := rwAddMethods copies table ⟨[], [], layout.2⟩ ct.ro.baseMethods
  (Classes.objcRegisterDynamicClass
    (r.setClass c { ct with ro := { ct.ro with ivars := layout.1 }, rw := some added.1 }) c, added.2)

/-- `realize_class`, with a bound on its recursion. -/
def realizeClass : ℕ → Table → Runtime → ℕ → Except Halt Runtime × Table
  | 0, table, _, _ => (.error .outOfFuel, table)
  | fuel + 1, table, r, c =>
    if r.isRealized c then (.ok r, table)
    else
      match (r.superclass c).elim (.ok r, table) (realizeClass fuel table r) with
      | (.error e, table) => (.error e, table)
      | (.ok r, table) =>
        match realizeOne copies table r c with
        | (none, table) => (.error .tooManyClasses, table)
        | (some r, table) => (r.classes c).isa.elim (.ok r, table) (realizeClass fuel table r)

/-- The loop of `objc_register_image` over the classes. -/
def realizeClasses : Table → Runtime → List ℕ → Except Halt Runtime × Table
  | table, r, [] => (.ok r, table)
  | table, r, c :: cs =>
    match realizeClass copies (Classes.realizeFuel c) table r c with
    | (.error e, table) => (.error e, table)
    | (.ok r, table) => realizeClasses table r cs

/-- The loop of `objc_register_image` over the categories. -/
def notePending (pending catlist : List (Option Category)) : List (Option Category) :=
  catlist.foldl
    (fun pending cat => if pending.length < maxPendingCategories then pending ++ [cat] else pending)
    pending

/-- `objc_register_image`. -/
def objcRegisterImage (s : State) (image : Image) : Except Halt State :=
  match realizeClasses copies (fixup copies s.selectors image.selrefs) s.runtime
      image.classlist with
  | (.error e, _) => .error e
  | (.ok runtime, selectors) =>
    .ok ⟨selectors, runtime, notePending s.pendingCats image.catlist⟩

/-- Methods for a class, if it is realized. -/
def addMethods (table : Table) (r : Runtime) (c : ℕ) (ml : List RawMethod) : Runtime × Table :=
  match (r.classes c).rw with
  | none => (r, table)
  | some rw =>
    let added := rwAddMethods copies table rw ml
    (r.setClass c { r.classes c with rw := some added.1 }, added.2)

/-- The body of the loop of `objc_attach_categories`. -/
def attachCategory (table : Table) (r : Runtime) : Option Category → Runtime × Table
  | none => (r, table)
  | some cat =>
    let first := addMethods copies table r cat.cls cat.instanceMethods
    (first.1.classes cat.cls).isa.elim first fun m =>
      addMethods copies first.2 first.1 m cat.classMethods

/-- `objc_attach_categories`. -/
def objcAttachCategories (s : State) : State :=
  let attached := s.pendingCats.foldl (fun a cat => attachCategory copies a.2 a.1 cat)
    (s.runtime, s.selectors)
  ⟨attached.2, attached.1, []⟩

/-- The loop of `_objc_init`. -/
def registerImages (s : State) : List (Option Image) → Except Halt State
  | [] => .ok s
  | none :: images => registerImages s images
  | some image :: images =>
    match objcRegisterImage copies s image with
    | .error e => .error e
    | .ok s => registerImages s images

/-- `_objc_init`; a header that is null is passed over. -/
def objcInit (s : State) (images : List (Option Image)) : Except Halt State :=
  match registerImages copies s images with
  | .error e => .error e
  | .ok s => .ok (objcAttachCategories copies s)

/-- Before `_objc_init`. -/
def start (img : Images) : State where
  selectors := []
  runtime := Classes.start img fun _ => 0
  pendingCats := []

/-- The lists of classes of images. -/
def classlists (images : List (Option Image)) : List ℕ :=
  images.flatMap fun image => image.elim [] Image.classlist

/-- The lists of categories of images. -/
def catlists (images : List (Option Image)) : List (Option Category) :=
  images.flatMap fun image => image.elim [] Image.catlist

/-- Images as the compiler and the linker leave them, with the class objects they come with: the
lists of classes have all classes and no metaclasses, a metaclass is that of a class, and a category
is one of a class. -/
structure Program where
  /-- The class objects. -/
  img : Images
  /-- The headers that `_objc_init` is given. -/
  images : List (Option Image)
  /-- The lists of classes have classes. -/
  classlist_class : ∀ c ∈ classlists images, c < img.count ∧ (img.classes c).ro.isMeta = false
  /-- They have all. -/
  classlist_all : ∀ c < img.count, (img.classes c).ro.isMeta = false → c ∈ classlists images
  /-- A metaclass is that of a class. -/
  metaclass_of : ∀ m < img.count, (img.classes m).ro.isMeta = true →
    ∃ c < img.count, (img.classes c).ro.isMeta = false ∧ (img.classes c).isa = some m
  /-- A category is one of a class. -/
  category_class : ∀ cat, some cat ∈ catlists images →
    cat.cls < img.count ∧ (img.classes cat.cls).ro.isMeta = false

/-! ## With given selectors -/

/-- The realization of a list of classes. -/
def realizeAll : Runtime → List ℕ → Except Halt Runtime
  | r, [] => .ok r
  | r, c :: cs =>
    match Classes.realizeClass (Classes.realizeFuel c) r c with
    | .error e => .error e
    | .ok r => realizeAll r cs

/-- The categories of a list, attached in order. -/
def attachAll (r : Runtime) (cats : List (Option Category)) : Runtime :=
  cats.foldl (fun r cat => cat.elim r (Classes.attachCategory r)) r

/-- A runtime with given selectors. -/
def withSel (r : Runtime) (selRegisterName : String → Sel) : Runtime :=
  { r with selRegisterName }

section

variable {table table' : Table} {r : Runtime} {c : ℕ}

/-- The selectors are in no class. -/
@[simp] lemma withSel_classes (f : String → Sel) : (withSel r f).classes = r.classes := rfl

/-- The selectors are in no class. -/
@[simp] lemma withSel_superclass (f : String → Sel) : (withSel r f).superclass = r.superclass := rfl

/-- The selectors are in no class. -/
@[simp] lemma withSel_isRealized (f : String → Sel) (c : ℕ) :
    (withSel r f).isRealized c = r.isRealized c := rfl

/-- Another class object. -/
lemma withSel_setClass (f : String → Sel) (c : ℕ) (ct : Classes.ClassT) :
    (withSel r f).setClass c ct = withSel (r.setClass c ct) f := rfl

/-- Another entry of the table of classes. -/
lemma objcRegisterDynamicClass_withSel (f : String → Sel) (c : ℕ) :
    Classes.objcRegisterDynamicClass (withSel r f) c =
      (Classes.objcRegisterDynamicClass r c).map fun r => withSel r f := by
  unfold Classes.objcRegisterDynamicClass withSel
  dsimp only
  split <;> rfl

/-! ## The table in the end -/

/-- The methods are added under the selectors that their names have in every later table. -/
lemma rwAddMethods_eq (table : Table) (rw : ClassRw) (ml : List RawMethod) :
    Extends table (rwAddMethods copies table rw ml).2 ∧
      ∀ table', Extends (rwAddMethods copies table rw ml).2 table' →
        Classes.rwAddMethods (selOf copies table') rw ml = (rwAddMethods copies table rw ml).1 := by
  induction ml generalizing table rw with
  | nil => exact ⟨.refl _ table, fun _ _ => rfl⟩
  | cons m ml ih =>
    obtain ⟨hext, hrest⟩ := ih (selRegisterName copies table (some m.name)).2
      (Classes.rwAppendMethod rw (selRegisterName copies table (some m.name)).1 m.imp)
    refine ⟨(selRegisterName_extends table m.name).trans hext, fun table' h => ?_⟩
    rw [rwAddMethods, ← hrest table' h, selRegisterName_eq (hext.trans h)]
    rfl

/-- One class. -/
lemma realizeOne_eq (table : Table) (r : Runtime) (c : ℕ) :
    Extends table (realizeOne copies table r c).2 ∧
      ∀ table', Extends (realizeOne copies table r c).2 table' →
        Classes.realizeOne (withSel r (selOf copies table')) c =
          (realizeOne copies table r c).1.map fun r => withSel r (selOf copies table') := by
  obtain ⟨hext, hmethods⟩ := rwAddMethods_eq copies table
    ⟨[], [], (Classes.layoutIvars ((r.classes c).superclass.elim 0 (Classes.classGetInstanceSize r))
      (r.classes c).ro.ivars).2⟩ (r.classes c).ro.baseMethods
  refine ⟨hext, fun table' h => ?_⟩
  rw [Classes.realizeOne, withSel_setClass, objcRegisterDynamicClass_withSel, realizeOne]
  dsimp only
  rw [← hmethods table' h]
  rfl

/-- **The classes that are realized on the way are those with the selectors of the table in the
end.** -/
theorem realizeClass_eq (fuel : ℕ) (table : Table) (r : Runtime) (c : ℕ) :
    Extends table (realizeClass copies fuel table r c).2 ∧
      ∀ table', Extends (realizeClass copies fuel table r c).2 table' →
        Classes.realizeClass fuel (withSel r (selOf copies table')) c =
          (realizeClass copies fuel table r c).1.map fun r => withSel r (selOf copies table') := by
  induction fuel generalizing table r c with
  | zero => exact ⟨.refl _ table, fun _ _ => rfl⟩
  | succ fuel ih =>
    -- a call that may not be made
    have helim : ∀ (table : Table) (r : Runtime) (o : Option ℕ),
        Extends table (o.elim (.ok r, table) (realizeClass copies fuel table r)).2 ∧
          ∀ table', Extends (o.elim (.ok r, table) (realizeClass copies fuel table r)).2 table' →
            o.elim (.ok (withSel r (selOf copies table')))
                (Classes.realizeClass fuel (withSel r (selOf copies table'))) =
              (o.elim (.ok r, table) (realizeClass copies fuel table r)).1.map
                fun r => withSel r (selOf copies table') := by
      intro table r o
      cases o with
      | none => exact ⟨.refl _ table, fun _ _ => rfl⟩
      | some p => exact ih table r p
    simp only [realizeClass, Classes.realizeClass, withSel_isRealized, withSel_superclass]
    by_cases hreal : r.isRealized c = true
    · simp only [hreal, ↓reduceIte]
      exact ⟨.refl _ table, fun _ _ => rfl⟩
    · simp only [hreal, Bool.false_eq_true, ↓reduceIte]
      obtain ⟨hext₁, hsuper⟩ := helim table r (r.superclass c)
      cases hfirst : (r.superclass c).elim (.ok r, table) (realizeClass copies fuel table r) with
      | mk res₁ table₁ =>
        rw [hfirst] at hext₁ hsuper
        cases res₁ with
        | error e =>
          refine ⟨hext₁, fun table' h => ?_⟩
          rw [hsuper table' h]
          rfl
        | ok r₁ =>
          dsimp only
          obtain ⟨hext₂, hone⟩ := realizeOne_eq copies table₁ r₁ c
          cases hsecond : realizeOne copies table₁ r₁ c with
          | mk res₂ table₂ =>
            rw [hsecond] at hext₂ hone
            cases res₂ with
            | none =>
              refine ⟨hext₁.trans hext₂, fun table' h => ?_⟩
              rw [hsuper table' (hext₂.trans h)]
              dsimp only [Except.map]
              rw [hone table' h]
              rfl
            | some r₂ =>
              dsimp only
              obtain ⟨hext₃, hisa⟩ := helim table₂ r₂ (r₂.classes c).isa
              refine ⟨(hext₁.trans hext₂).trans hext₃, fun table' h => ?_⟩
              rw [hsuper table' ((hext₂.trans hext₃).trans h)]
              dsimp only [Except.map]
              rw [hone table' (hext₃.trans h)]
              exact hisa table' h

/-- A list of classes behind another one. -/
lemma realizeAll_append {r₁ : Runtime} {cs : List ℕ} (h : realizeAll r cs = .ok r₁) (ds : List ℕ) :
    realizeAll r (cs ++ ds) = realizeAll r₁ ds := by
  induction cs generalizing r with
  | nil =>
    cases h
    rfl
  | cons c cs ih =>
    rw [List.cons_append, realizeAll]
    rw [realizeAll] at h
    cases hone : Classes.realizeClass (Classes.realizeFuel c) r c with
    | error e =>
      rw [hone] at h
      cases h
    | ok r₂ =>
      rw [hone] at h
      exact ih h

/-- Nothing comes behind a failure. -/
lemma realizeAll_append_error {e : Halt} {cs : List ℕ} (h : realizeAll r cs = .error e)
    (ds : List ℕ) : realizeAll r (cs ++ ds) = .error e := by
  induction cs generalizing r with
  | nil => cases h
  | cons c cs ih =>
    rw [List.cons_append, realizeAll]
    rw [realizeAll] at h
    cases hone : Classes.realizeClass (Classes.realizeFuel c) r c with
    | error e' =>
      rw [hone] at h
      exact h
    | ok r₂ =>
      rw [hone] at h
      exact ih h

/-- The classes of an image. -/
lemma realizeClasses_eq (table : Table) (r : Runtime) (cs : List ℕ) :
    Extends table (realizeClasses copies table r cs).2 ∧
      ∀ table', Extends (realizeClasses copies table r cs).2 table' →
        realizeAll (withSel r (selOf copies table')) cs =
          (realizeClasses copies table r cs).1.map fun r => withSel r (selOf copies table') := by
  induction cs generalizing table r with
  | nil => exact ⟨.refl _ table, fun _ _ => rfl⟩
  | cons c cs ih =>
    obtain ⟨hext₁, hone⟩ := realizeClass_eq copies (Classes.realizeFuel c) table r c
    rw [realizeClasses]
    simp only [realizeAll]
    cases hfirst : realizeClass copies (Classes.realizeFuel c) table r c with
    | mk res₁ table₁ =>
      rw [hfirst] at hext₁ hone
      cases res₁ with
      | error e =>
        refine ⟨hext₁, fun table' h => ?_⟩
        rw [hone table' h]
        rfl
      | ok r₁ =>
        obtain ⟨hext₂, hrest⟩ := ih table₁ r₁
        refine ⟨hext₁.trans hext₂, fun table' h => ?_⟩
        rw [hone table' (hext₂.trans h)]
        exact hrest table' h

/-- The first categories are noted. -/
lemma notePending_take (cats more : List (Option Category)) :
    notePending (cats.take maxPendingCategories) more =
      (cats ++ more).take maxPendingCategories := by
  induction more generalizing cats with
  | nil => rw [List.append_nil]; rfl
  | cons cat more ih =>
    have hstep : notePending (cats.take maxPendingCategories) (cat :: more) =
        notePending ((cats ++ [cat]).take maxPendingCategories) more := by
      rw [notePending, List.foldl_cons, ← notePending]
      congr 1
      rw [List.length_take]
      split
      · next hlt =>
        have hlen : cats.length < maxPendingCategories := by omega
        rw [List.take_of_length_le hlen.le, List.take_of_length_le]
        rw [List.length_append, List.length_singleton]
        omega
      · next hge =>
        rw [List.take_append_of_le_length (by omega)]
    rw [hstep, ih, List.append_assoc, List.singleton_append]

/-- **The images are registered**: the classes of all of them are realized, in order, and the first
categories are noted; or there is a failure on the way. -/
theorem registerImages_eq (s : State) (images : List (Option Image)) :
    (∀ s', registerImages copies s images = .ok s' → Extends s.selectors s'.selectors ∧
      (∀ table', Extends s'.selectors table' →
        realizeAll (withSel s.runtime (selOf copies table')) (classlists images) =
          .ok (withSel s'.runtime (selOf copies table'))) ∧
      ∀ cats, s.pendingCats = cats.take maxPendingCategories →
        s'.pendingCats = (cats ++ catlists images).take maxPendingCategories) ∧
    ∀ e, registerImages copies s images = .error e → ∃ table, Extends s.selectors table ∧
      ∀ table', Extends table table' →
        realizeAll (withSel s.runtime (selOf copies table')) (classlists images) = .error e := by
  induction images generalizing s with
  | nil =>
    refine ⟨fun s' h => ?_, nofun⟩
    cases h
    refine ⟨.refl _ _, fun _ _ => rfl, fun cats hcats => ?_⟩
    rw [hcats, catlists, List.flatMap_nil, List.append_nil]
  | cons image images ih =>
    cases image with
    | none => exact ih s
    | some image =>
      have hlists : classlists (some image :: images) = image.classlist ++ classlists images :=
        List.flatMap_cons
      have hcats : catlists (some image :: images) = image.catlist ++ catlists images :=
        List.flatMap_cons
      have hfix : Extends s.selectors (fixup copies s.selectors image.selrefs) :=
        fixup_extends s.selectors image.selrefs
      obtain ⟨hext₁, hclasses⟩ := realizeClasses_eq copies
        (fixup copies s.selectors image.selrefs) s.runtime image.classlist
      rw [registerImages, objcRegisterImage, hlists, hcats]
      cases hfirst : realizeClasses copies (fixup copies s.selectors image.selrefs) s.runtime
          image.classlist with
      | mk res₁ table₁ =>
        rw [hfirst] at hext₁ hclasses
        cases res₁ with
        | error e₁ =>
          refine ⟨fun s' h => ?_, fun e h => ?_⟩
          · cases h
          cases h
          exact ⟨table₁, hfix.trans hext₁, fun table' h' =>
            realizeAll_append_error (hclasses table' h') _⟩
        | ok r₁ =>
          obtain ⟨hok, herror⟩ := ih ⟨table₁, r₁, notePending s.pendingCats image.catlist⟩
          refine ⟨fun s' h => ?_, fun e h => ?_⟩
          · obtain ⟨hext₂, hrest, hpending⟩ := hok s' h
            refine ⟨(hfix.trans hext₁).trans hext₂, fun table' h' => ?_, fun cats hs => ?_⟩
            · rw [realizeAll_append (hclasses table' (hext₂.trans h'))]
              exact hrest table' h'
            · rw [← List.append_assoc]
              refine hpending (cats ++ image.catlist) ?_
              rw [← notePending_take, ← hs]
          · obtain ⟨table, hext₂, hrest⟩ := herror e h
            refine ⟨table, (hfix.trans hext₁).trans hext₂, fun table' h' => ?_⟩
            rw [realizeAll_append (hclasses table' (hext₂.trans h'))]
            exact hrest table' h'

/-- Methods of a category. -/
lemma addMethods_eq (table : Table) (r : Runtime) (c : ℕ) (ml : List RawMethod) :
    Extends table (addMethods copies table r c ml).2 ∧
      ∀ table', Extends (addMethods copies table r c ml).2 table' →
        Classes.addMethods (withSel r (selOf copies table')) c ml =
          withSel (addMethods copies table r c ml).1 (selOf copies table') := by
  rw [addMethods]
  simp only [Classes.addMethods, withSel_classes]
  cases (r.classes c).rw with
  | none => exact ⟨.refl _ table, fun _ _ => rfl⟩
  | some rw =>
    obtain ⟨hext, hmethods⟩ := rwAddMethods_eq copies table rw ml
    refine ⟨hext, fun table' h => ?_⟩
    dsimp only
    rw [← hmethods table' h]
    rfl

/-- A category. -/
lemma attachCategory_eq (table : Table) (r : Runtime) (cat : Option Category) :
    Extends table (attachCategory copies table r cat).2 ∧
      ∀ table', Extends (attachCategory copies table r cat).2 table' →
        cat.elim (withSel r (selOf copies table'))
            (Classes.attachCategory (withSel r (selOf copies table'))) =
          withSel (attachCategory copies table r cat).1 (selOf copies table') := by
  cases cat with
  | none => exact ⟨.refl _ table, fun _ _ => rfl⟩
  | some cat =>
    obtain ⟨hext₁, hfirst⟩ := addMethods_eq copies table r cat.cls cat.instanceMethods
    rw [attachCategory]
    simp only [Option.elim_some, Classes.attachCategory]
    cases hisa : ((addMethods copies table r cat.cls cat.instanceMethods).1.classes cat.cls).isa with
    | none =>
      refine ⟨hext₁, fun table' h => ?_⟩
      rw [hfirst table' h, withSel_classes, hisa]
      rfl
    | some m =>
      obtain ⟨hext₂, hsecond⟩ := addMethods_eq copies
        (addMethods copies table r cat.cls cat.instanceMethods).2
        (addMethods copies table r cat.cls cat.instanceMethods).1 m cat.classMethods
      refine ⟨hext₁.trans hext₂, fun table' h => ?_⟩
      rw [hfirst table' (hext₂.trans h), withSel_classes, hisa]
      exact hsecond table' h

/-- The categories that are noted. -/
lemma attachAll_eq (table : Table) (r : Runtime) (cats : List (Option Category)) :
    Extends table (cats.foldl (fun a cat => attachCategory copies a.2 a.1 cat) (r, table)).2 ∧
      ∀ table',
        Extends (cats.foldl (fun a cat => attachCategory copies a.2 a.1 cat) (r, table)).2 table' →
          attachAll (withSel r (selOf copies table')) cats =
            withSel (cats.foldl (fun a cat => attachCategory copies a.2 a.1 cat) (r, table)).1
              (selOf copies table') := by
  induction cats generalizing table r with
  | nil => exact ⟨.refl _ table, fun _ _ => rfl⟩
  | cons cat cats ih =>
    obtain ⟨hext₁, hone⟩ := attachCategory_eq copies table r cat
    obtain ⟨hext₂, hrest⟩ := ih (attachCategory copies table r cat).2
      (attachCategory copies table r cat).1
    refine ⟨hext₁.trans hext₂, fun table' h => ?_⟩
    rw [attachAll, List.foldl_cons, hone table' (hext₂.trans h)]
    exact hrest table' h

/-- **What `_objc_init` leaves**: the classes of all images realized in order, and the first
categories attached, with the selectors of the table in the end or of any later one. -/
theorem objcInit_eq {s s' : State} {images : List (Option Image)} (hs : s.pendingCats = [])
    (h : objcInit copies s images = .ok s') (hext : Extends s'.selectors table') :
    ∃ r, realizeAll (withSel s.runtime (selOf copies table')) (classlists images) = .ok r ∧
      withSel s'.runtime (selOf copies table') =
        attachAll r ((catlists images).take maxPendingCategories) := by
  rw [objcInit] at h
  cases hreg : registerImages copies s images with
  | error e =>
    rw [hreg] at h
    cases h
  | ok s₁ =>
    rw [hreg] at h
    obtain rfl := Except.ok.inj h
    obtain ⟨-, hrealize, hpending⟩ := (registerImages_eq copies s images).1 s₁ hreg
    have hcats := hpending [] (by rw [hs, List.take_nil])
    obtain ⟨hext₂, hattach⟩ := attachAll_eq copies s₁.selectors s₁.runtime
      s₁.pendingCats
    refine ⟨_, hrealize table' (hext₂.trans hext), ?_⟩
    rw [List.nil_append] at hcats
    rw [← hcats]
    exact (hattach table' hext).symm

end

/-! ## All classes -/

section

open Classes (Linked Closed KeptByOne NoRoom)

variable {img : Images} {P Q : Runtime → Prop} {r : Runtime} {c : ℕ}

/-- Two properties that are kept. -/
lemma keptByOne_and (hP : KeptByOne img c P) (hQ : KeptByOne img c Q) :
    KeptByOne img c fun r => P r ∧ Q r :=
  fun r d r' h hl hd hreal hsuper hwhich hr =>
    ⟨hP r d r' h.1 hl hd hreal hsuper hwhich hr, hQ r d r' h.2 hl hd hreal hsuper hwhich hr⟩

/-- Realized classes stay realized. -/
lemma keptByOne_isRealized (d : ℕ) : KeptByOne img c fun r => r.isRealized d :=
  fun _ _ _ h _ _ _ _ _ hr => hr.isRealized_mono h

/-- **The rule for the realization of a list of classes**: it comes to an end, all of them are
realized, what is kept when one class behind its superclass is realized is kept, and it fails only
where there is no room. -/
theorem realizeAll_spec
    (hP : ∀ c < img.count, (img.classes c).ro.isMeta = false → KeptByOne img c P) {cs : List ℕ}
    (hcs : ∀ c ∈ cs, c < img.count ∧ (img.classes c).ro.isMeta = false) (hl : Linked img r)
    (hcl : Closed img r) (hp : P r) :
    (realizeAll r cs = .error .tooManyClasses ∧ NoRoom img P) ∨
      ∃ r', realizeAll r cs = .ok r' ∧ P r' ∧ Linked img r' ∧ Closed img r' ∧
        ∀ c ∈ cs, r'.isRealized c := by
  induction cs generalizing r P with
  | nil => exact .inr ⟨r, rfl, hp, hl, hcl, nofun⟩
  | cons c cs ih =>
    obtain ⟨hc, hclass⟩ := hcs c List.mem_cons_self
    rw [realizeAll]
    rcases Classes.realizeClass_spec (hP c hc hclass) (Nat.le_refl _) hc hclass
      (Ancestry.self_mem_chain c) hl hcl hp with ⟨herr, hfull⟩ | ⟨r₁, hok, h₁⟩
    · rw [herr]
      exact .inl ⟨rfl, hfull⟩
    · rw [hok]
      dsimp only
      rcases ih
        (fun c₀ hc₀ hclass₀ => keptByOne_and (hP c₀ hc₀ hclass₀) (keptByOne_isRealized c))
        (fun d hd => hcs d (List.mem_cons_of_mem c hd)) h₁.linked h₁.closed
        ⟨h₁.kept, h₁.realized⟩ with ⟨herr, r₂, d, hp₂, hrest⟩ | ⟨r', hok', hp', hl', hcl', hall⟩
      · exact .inl ⟨herr, r₂, d, hp₂.1, hrest⟩
      · refine .inr ⟨r', hok', hp'.1, hl', hcl', fun d hd => ?_⟩
        rcases List.mem_cons.mp hd with rfl | hd
        · exact hp'.2
        · exact hall d hd

/-- Once the lists of classes of a program are realized, every class object is. -/
lemma Program.isRealized (program : Program) (hl : Linked program.img r)
    (hcl : Closed program.img r) (hall : ∀ c ∈ classlists program.images, r.isRealized c)
    (hc : c < program.img.count) : r.isRealized c := by
  cases hmeta : (program.img.classes c).ro.isMeta with
  | false => exact hall c (program.classlist_all c hc hmeta)
  | true =>
    obtain ⟨d, hd, hclass, hisa⟩ := program.metaclass_of c hc hmeta
    have hreal := hall d (program.classlist_all d hd hclass)
    exact (hcl.metaclass d hd hclass hreal c (by rw [hl.isa_eq d hd, hisa])).1

/-- The root class and its subclass, in one image, with a category. -/
def rootAndSub (cat : Category) (hcls : cat.cls = 0) : Program where
  img := Classes.rootAndSub
  images := [some ⟨["foo"], [2, 0], [some cat]⟩]
  classlist_class c hc := by
    have hmem : c = 2 ∨ c = 0 := by simpa [classlists] using hc
    rcases hmem with rfl | rfl <;> decide
  classlist_all c hc hclass := by
    change c < 4 at hc
    interval_cases c <;> simp_all [classlists, Classes.rootAndSub, Classes.rootAndSubClasses,
      Classes.compiled]
  metaclass_of m hm hmeta := by
    change m < 4 at hm
    interval_cases m
    · cases hmeta
    · exact ⟨0, by decide, rfl, rfl⟩
    · cases hmeta
    · exact ⟨2, by decide, rfl, rfl⟩
  category_class c hc := by
    have hmem : c = cat := by simpa [catlists] using hc
    rw [hmem, hcls]
    decide

end

end Asteros.Objc.Startup
