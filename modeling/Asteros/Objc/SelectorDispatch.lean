import Asteros.Objc.RegistrationOrder

set_option autoImplicit false

/-!
# Messages go by name

Selectors are compared as addresses: in the lists of methods, in the caches, and by the program. As
long as every name gets a place in the table this is a comparison of names: `sel_registerName`
returns the same selector for the same name and different ones for different names, and a message
reaches code that was declared for its name.

When the table is full, `sel_registerName` returns the null selector for every new name. The names
are then equal for all comparisons, and a bucket of a cache that is empty looks as if it had the
method.

## Main definitions

* `World`, `step` — the runtime behind `_objc_init`, with the history of what it returned, and one
  call.
* `ByName` — messages go by name.
* `HasPlace` — the condition: the name of the call gets a place in the table.
* `Consistent` — the invariant.

## Main results

* `byName` — messages go by name as long as every name gets a place.
* `not_byName` — they do not when the table is full.
-/

namespace Asteros.Objc.Startup

open Classes (Sel Imp RawMethod Method ClassRw Runtime Halt Category Images Linked Closed
  KeptByOne Realizes)
open Selectors

/-! ## Runs -/

section

variable (copies : Copies)

/-- The slots of the selector references of an image, with their names, behind
`objc_selref_fixup`. -/
def fixupSlots : Table → List String → List (String × Sel)
  | _, [] => []
  | table, name :: names =>
    let found := selRegisterName copies table (some name)
    (name, found.1) :: fixupSlots found.2 names

/-- The slots of all images. -/
def selrefSlots (s : State) : List (Option Image) → List (String × Sel)
  | [] => []
  | none :: images => selrefSlots s images
  | some image :: images =>
    fixupSlots copies s.selectors image.selrefs ++
      match objcRegisterImage copies s image with
      | .error _ => []
      | .ok s => selrefSlots s images

/-- The names and the code of methods. -/
def declarations (ml : List RawMethod) : List (String × Imp) := ml.map fun m => (m.name, m.imp)

/-- The methods that the images of a program declare. -/
def Program.declared (program : Program) : List (String × Imp) :=
  ((List.range program.img.count).flatMap fun c =>
      declarations (program.img.classes c).ro.baseMethods) ++
    (catlists program.images).flatMap fun cat =>
      cat.elim [] fun cat => declarations (cat.instanceMethods ++ cat.classMethods)

/-- The runtime behind `_objc_init`. -/
structure World where
  /-- The runtime. -/
  state : State
  /-- History: the methods that were declared, by name. -/
  declared : List (String × Imp)
  /-- History: what `sel_registerName` returned for a name. -/
  given : List (String × Sel)
  /-- History: the code that messages with the selector of a name reached. -/
  answered : List (String × Imp)

/-- Behind `_objc_init`. -/
def boot (program : Program) (s : State) : World where
  state := s
  declared := program.declared
  given := selrefSlots copies (start program.img) program.images
  answered := []

/-- A call of the program. A message and a new method have the selector that `sel_registerName`
returns for their name. -/
inductive Call where
  /-- `sel_registerName`. -/
  | selRegisterName (name : String)
  /-- `objc_msgSend`, as far as the lookup of the method. -/
  | send (c : ℕ) (name : String)
  /-- `class_addMethod`. -/
  | addMethod (c : ℕ) (name : String) (imp : Imp)
  /-- `objc_allocateClassPair`. -/
  | allocateClassPair (superclass : Option ℕ) (name : String) (extraBytes : ℕ)
  /-- `objc_registerClassPair`. -/
  | registerClassPair (c : ℕ)
  /-- `class_addIvar`. -/
  | addIvar (c : ℕ) (name : String) (size alignment : ℕ)

/-- The name that a call registers. -/
def Call.selector : Call → Option String
  | .selRegisterName name => some name
  | .send _ name => some name
  | .addMethod _ name _ => some name
  | .allocateClassPair .. => none
  | .registerClassPair _ => none
  | .addIvar .. => none

/-- The world with another runtime. -/
def World.withRuntime (w : World) (runtime : Runtime) : World :=
  { w with state := { w.state with runtime } }

/-- The world behind `sel_registerName`. -/
def World.register (w : World) (name : String) : World :=
  let found := Selectors.selRegisterName copies w.state.selectors (some name)
  { w with
    state := { w.state with selectors := found.2 }
    given := (name, found.1) :: w.given }

/-- `class_addMethod`. -/
def World.addMethod (w : World) (c : ℕ) (sel : Sel) (name : String) (imp : Imp) : World :=
  let added := Classes.classAddMethod w.state.runtime c sel imp
  { w.withRuntime added.2 with
    declared := if added.1 then (name, imp) :: w.declared else w.declared }

/-- `objc_msgSend`. -/
def World.send (w : World) (c : ℕ) (sel : Sel) (name : String) : Option World :=
  (Classes.objcClassLookupAndCache w.state.runtime c sel).map fun found =>
    { w.withRuntime found.2 with answered := (name, found.1) :: w.answered }

/-- One call; `none` if the process aborts, or the call names a class object that does not
exist. -/
def step (w : World) : Call → Option World
  | .selRegisterName name => some (w.register copies name)
  | .send c name =>
    if c < w.state.runtime.next then
      (w.register copies name).send c
        (Selectors.selRegisterName copies w.state.selectors (some name)).1 name
    else none
  | .addMethod c name imp =>
    if c < w.state.runtime.next then
      some ((w.register copies name).addMethod c
        (Selectors.selRegisterName copies w.state.selectors (some name)).1 name imp)
    else none
  | .allocateClassPair superclass name extraBytes =>
    (Classes.step w.state.runtime (.allocateClassPair superclass name extraBytes)).map w.withRuntime
  | .registerClassPair c => (Classes.step w.state.runtime (.registerClassPair c)).map w.withRuntime
  | .addIvar c name size alignment =>
    (Classes.step w.state.runtime (.addIvar c name size alignment)).map w.withRuntime

end

/-- Messages go by name: the selectors that were returned are the same exactly for the same names,
and the code that a message reached was declared for its name. -/
structure ByName (w : World) : Prop where
  /-- Selectors. -/
  selectors : ∀ p ∈ w.given, ∀ q ∈ w.given, p.2 = q.2 ↔ p.1 = q.1
  /-- Messages. -/
  messages : ∀ p ∈ w.answered, p ∈ w.declared

/-- The condition: the name of the call is in the table, or there is room for it. -/
def HasPlace (w : World) (call : Call) : Prop :=
  ∀ name ∈ call.selector,
    name ∈ w.state.selectors ∨ w.state.selectors.length < objcMaxSelectors

instance : DecidableRel HasPlace := fun w call =>
  inferInstanceAs (Decidable (∀ name ∈ call.selector,
    name ∈ w.state.selectors ∨ w.state.selectors.length < objcMaxSelectors))

/-! ## The invariant -/

/-- Code was declared for the name of a selector. -/
def Declared (copies : Copies) (w : World) (sel : Sel) (imp : Imp) : Prop :=
  ∃ name ∈ w.state.selectors, selOf copies w.state.selectors name = sel ∧ (name, imp) ∈ w.declared

/-- Every selector that was returned, or that a method or a bucket has, is that of a name in the
table, and the code with it was declared for the name. -/
structure Consistent (copies : Copies) (w : World) : Prop where
  /-- What was returned. -/
  given : ∀ p ∈ w.given, p.1 ∈ w.state.selectors ∧ p.2 = selOf copies w.state.selectors p.1
  /-- Methods. -/
  methods : ∀ c ms, methodsOf w.state.runtime c = some ms →
    ∀ m ∈ ms, Declared copies w m.name m.imp
  /-- Buckets. -/
  caches : ∀ c cache, (w.state.runtime.classes c).cache = some cache →
    ∀ k, (cache k).sel ≠ 0 → Declared copies w (cache k).sel (cache k).imp
  /-- Messages. -/
  answered : ∀ p ∈ w.answered, p ∈ w.declared

section

variable {copies : Copies} {w w' : World} {c d : ℕ} {sel : Sel} {imp : Imp} {name : String}
  {r r' : Runtime}

/-- What was declared stays so. -/
lemma Declared.mono (h : Declared copies w sel imp)
    (hext : Extends w.state.selectors w'.state.selectors) (hdecl : w.declared ⊆ w'.declared) :
    Declared copies w' sel imp := by
  obtain ⟨name, hmem, hsel, hname⟩ := h
  exact ⟨name, hext.isPrefix.subset hmem, (selOf_extends hext hmem).trans hsel, hdecl hname⟩

/-- Messages go by name where the invariant holds. -/
lemma Consistent.goesByName (h : Consistent copies w) : ByName w := by
  refine ⟨fun p hp q hq => ⟨fun heq => ?_, fun heq => ?_⟩, h.answered⟩
  · obtain ⟨hmem, hsel⟩ := h.given p hp
    rw [hsel, (h.given q hq).2] at heq
    exact selOf_injective hmem heq
  · rw [(h.given p hp).2, (h.given q hq).2, heq]

/-- Another runtime, of which the methods and the caches are declared. -/
lemma Consistent.withRuntime (h : Consistent copies w)
    (hmethods : ∀ c ms, methodsOf r' c = some ms → ∀ m ∈ ms, Declared copies w m.name m.imp)
    (hcaches : ∀ c cache, (r'.classes c).cache = some cache →
      ∀ k, (cache k).sel ≠ 0 → Declared copies w (cache k).sel (cache k).imp) :
    Consistent copies (w.withRuntime r') :=
  ⟨h.given, hmethods, hcaches, h.answered⟩

/-- A runtime with the same methods and caches. -/
lemma Consistent.of_same (h : Consistent copies w)
    (hmethods : ∀ c, methodsOf r' c = methodsOf w.state.runtime c)
    (hcaches : ∀ c, (r'.classes c).cache = (w.state.runtime.classes c).cache) :
    Consistent copies (w.withRuntime r') :=
  h.withRuntime (fun c ms hms => h.methods c ms (hmethods c ▸ hms))
    fun c cache hc => h.caches c cache (hcaches c ▸ hc)

/-- **A name that gets a place** is registered, and has its selector. -/
lemma Consistent.register (h : Consistent copies w)
    (hplace : name ∈ w.state.selectors ∨ w.state.selectors.length < objcMaxSelectors) :
    Consistent copies (w.register copies name) ∧
      name ∈ (w.register copies name).state.selectors ∧
      (Selectors.selRegisterName copies w.state.selectors (some name)).1 =
        selOf copies (w.register copies name).state.selectors name := by
  have hext : Extends w.state.selectors (w.register copies name).state.selectors :=
    selRegisterName_extends w.state.selectors name
  have hsel : (Selectors.selRegisterName copies w.state.selectors (some name)).1 =
      selOf copies (w.register copies name).state.selectors name :=
    selRegisterName_eq (.refl _ _)
  have hmem : name ∈ (w.register copies name).state.selectors := by
    have hin := Intern.mem_enter_of_room hplace
    change name ∈ (Selectors.selRegisterName copies w.state.selectors (some name)).2
    rwa [selRegisterName_enter]
  have hmono : ∀ {sel imp}, Declared copies w sel imp →
      Declared copies (w.register copies name) sel imp :=
    fun hd => hd.mono hext (List.Subset.refl _)
  refine ⟨⟨fun p hp => ?_, fun c ms hms m hm => hmono (h.methods c ms hms m hm),
    fun c cache hc k hk => hmono (h.caches c cache hc k hk), h.answered⟩, hmem, hsel⟩
  rcases List.mem_cons.mp hp with rfl | hp
  · exact ⟨hmem, hsel⟩
  · obtain ⟨hin, heq⟩ := h.given p hp
    exact ⟨hext.isPrefix.subset hin, heq.trans (selOf_extends hext hin).symm⟩

/-- The method that a lookup finds is one of a class, for the selector. -/
lemma exists_methodsOf {m : Method} (h : Classes.classLookupMethodT r c sel = some m) :
    ∃ d ms, methodsOf r d = some ms ∧ m ∈ ms ∧ m.name = sel := by
  obtain ⟨d, -, hown⟩ := List.exists_of_findSome?_eq_some h
  rw [Classes.ownMethod_eq] at hown
  obtain ⟨ms, hms, hfind⟩ := Option.bind_eq_some_iff.mp hown
  exact ⟨d, ms, hms, List.mem_of_find?_eq_some hfind, by simpa using List.find?_some hfind⟩

/-! ## Steps -/

/-- What was declared for the selector of a name was declared for the name. -/
lemma Declared.of_name (h : Declared copies w (selOf copies w.state.selectors name) imp)
    (hmem : name ∈ w.state.selectors) : (name, imp) ∈ w.declared := by
  obtain ⟨name', -, hsel, hdecl⟩ := h
  rwa [selOf_injective hmem hsel.symm]

/-- The methods that a lookup finds are declared. -/
lemma Consistent.lookup {m : Method} (h : Consistent copies w)
    (hm : Classes.classLookupMethodT w.state.runtime c sel = some m) :
    Declared copies w sel m.imp := by
  obtain ⟨d, ms, hms, hmem, rfl⟩ := exists_methodsOf hm
  exact h.methods d ms hms m hmem

/-- **A message** reaches code that was declared for its name. -/
lemma Consistent.send (h : Consistent copies w) (hmem : name ∈ w.state.selectors)
    (hs : w.send c (selOf copies w.state.selectors name) name = some w') :
    Consistent copies w' := by
  obtain ⟨⟨imp, r'⟩, hlookup, rfl⟩ := Option.map_eq_some_iff.mp hs
  have hne : selOf copies w.state.selectors name ≠ 0 := selOf_ne_zero hmem
  -- what is in the buckets before the call is declared
  have hensure : ∀ k, (Classes.ensureCache w.state.runtime c k).sel ≠ 0 →
      Declared copies w (Classes.ensureCache w.state.runtime c k).sel
        (Classes.ensureCache w.state.runtime c k).imp := by
    intro k hk
    cases hc : (w.state.runtime.classes c).cache with
    | none =>
      rw [Classes.ensureCache, hc, Option.getD_none] at hk
      exact absurd rfl hk
    | some cache =>
      rw [Classes.ensureCache, hc, Option.getD_some] at hk ⊢
      exact h.caches c cache hc k hk
  have hfound : Declared copies w (selOf copies w.state.selectors name) imp := by
    rcases Classes.objcClassLookupAndCache_imp hlookup with ⟨k, hk⟩ | ⟨m, hm, rfl⟩
    · have hdecl := hensure k (by rwa [hk])
      rwa [hk] at hdecl
    · exact h.lookup hm
  obtain ⟨cache, rfl, hcache⟩ := Classes.objcClassLookupAndCache_cache hlookup
  have hw : Consistent copies (w.withRuntime
      { w.state.runtime.setClass c { w.state.runtime.classes c with cache := some cache } with
        sent := true }) := by
    refine h.withRuntime (fun d ms hms => h.methods d ms ?_) fun d cache' hd k hk => ?_
    · rw [← hms]
      rcases eq_or_ne d c with rfl | hd
      · simp [methodsOf]
      · simp [methodsOf, hd]
    · rcases eq_or_ne d c with rfl | hdc
      · simp only [Classes.Runtime.setClass_self, Option.some.injEq] at hd
        subst hd
        rcases hcache k with hold | ⟨m, hm, hnew⟩
        · rw [hold] at hk ⊢
          exact hensure k hk
        · rw [hnew]
          exact h.lookup hm
      · simp only [Classes.Runtime.setClass_of_ne hdc] at hd
        exact h.caches d cache' hd k hk
  refine ⟨hw.given, hw.methods, hw.caches, fun p hp => ?_⟩
  rcases List.mem_cons.mp hp with rfl | hp
  · exact hfound.of_name hmem
  · exact h.answered p hp

/-- **A new method** is declared for its name. -/
lemma Consistent.addMethod (h : Consistent copies w) (hmem : name ∈ w.state.selectors) :
    Consistent copies (w.addMethod c (selOf copies w.state.selectors name) name imp) := by
  rw [World.addMethod, Classes.classAddMethod]
  cases hrw : (w.state.runtime.classes c).rw with
  | none => exact h.of_same (fun _ => rfl) fun _ => rfl
  | some rw =>
    dsimp only
    split
    · exact h.of_same (fun _ => rfl) fun _ => rfl
    · have hgrow : ∀ {sel imp'}, Declared copies w sel imp' →
          Declared copies { w with declared := (name, imp) :: w.declared } sel imp' :=
        fun hd => hd.mono (.refl _ _) (List.subset_cons_self _ _)
      refine ⟨h.given, fun d ms hms m hm => ?_, fun d cache hd k hk => ?_, fun p hp => ?_⟩
      · rcases eq_or_ne d c with rfl | hdc
        · have hms' : rw.methods ++ [⟨selOf copies w.state.selectors name, imp⟩] = ms := by
            simpa [methodsOf, World.withRuntime, Classes.rwAppendMethod] using hms
          rw [← hms', List.mem_append, List.mem_singleton] at hm
          rcases hm with hm | rfl
          · exact hgrow (h.methods d rw.methods (by rw [methodsOf, hrw]; rfl) m hm)
          · exact ⟨name, hmem, rfl, List.mem_cons_self⟩
        · refine hgrow (h.methods d ms ?_ m hm)
          rw [← hms]
          simp [methodsOf, World.withRuntime, hdc]
      · refine hgrow (h.caches d cache ?_ k hk)
        rw [← hd]
        rcases eq_or_ne d c with rfl | hdc
        · simp [World.withRuntime]
        · simp [World.withRuntime, hdc]
      · exact List.mem_cons_of_mem _ (h.answered p hp)

/-- A new pair of classes has no methods. -/
lemma Consistent.allocates {superclass : Option ℕ} {extraBytes : ℕ} (h : Consistent copies w)
    (ha : Classes.Allocates w.state.runtime superclass name extraBytes r') :
    Consistent copies (w.withRuntime r') := by
  have hcases : ∀ d, ((r'.classes d).cache = none ∧ methodsOf r' d = some []) ∨
      r'.classes d = w.state.runtime.classes d := by
    intro d
    rcases eq_or_ne d w.state.runtime.next with rfl | hd
    · rw [methodsOf, ha.cls]
      exact .inl ⟨rfl, rfl⟩
    · rcases eq_or_ne d (w.state.runtime.next + 1) with rfl | hd'
      · rw [methodsOf, ha.metaCls]
        exact .inl ⟨rfl, rfl⟩
      · exact .inr (ha.others d hd hd')
  refine h.withRuntime (fun d ms hms m hm => ?_) fun d cache hd k hk => ?_
  · rcases hcases d with ⟨-, hnone⟩ | hsame
    · obtain rfl := Option.some.inj (hnone.symm.trans hms)
      cases hm
    · rw [methodsOf, hsame] at hms
      exact h.methods d ms hms m hm
  · rcases hcases d with ⟨hnone, -⟩ | hsame
    · rw [hnone] at hd
      cases hd
    · rw [hsame] at hd
      exact h.caches d cache hd k hk

/-- **Every call** whose name gets a place keeps the invariant. -/
theorem Consistent.step {call : Call} (h : Consistent copies w) (hplace : HasPlace w call)
    (hs : step copies w call = some w') : Consistent copies w' := by
  cases call with
  | selRegisterName name =>
    obtain rfl := Option.some.inj hs
    exact (h.register (hplace name rfl)).1
  | send c name =>
    obtain ⟨hw, hmem, hsel⟩ := h.register (hplace name rfl)
    rw [Startup.step, Option.ite_none_right_eq_some, hsel] at hs
    exact hw.send hmem hs.2
  | addMethod c name imp =>
    obtain ⟨hw, hmem, hsel⟩ := h.register (hplace name rfl)
    rw [Startup.step, Option.ite_none_right_eq_some, hsel] at hs
    obtain rfl := Option.some.inj hs.2
    exact hw.addMethod hmem
  | allocateClassPair superclass name extraBytes =>
    obtain ⟨r', hr', rfl⟩ := Option.map_eq_some_iff.mp hs
    rw [Classes.step, Option.ite_none_right_eq_some] at hr'
    obtain rfl := Option.some.inj hr'.2
    rcases Classes.objcAllocateClassPair_allocates superclass name extraBytes with heq | ha
    · rw [heq]
      exact h
    · exact h.allocates ha
  | registerClassPair c =>
    obtain ⟨r', hr', rfl⟩ := Option.map_eq_some_iff.mp hs
    rw [Classes.step, Option.ite_none_right_eq_some] at hr'
    rw [Classes.objcRegisterDynamicClass_eq hr'.2]
    exact h.of_same (fun _ => rfl) fun _ => rfl
  | addIvar c name size alignment =>
    obtain ⟨r', hr', rfl⟩ := Option.map_eq_some_iff.mp hs
    rw [Classes.step, Option.ite_none_right_eq_some] at hr'
    obtain rfl := Option.some.inj hr'.2
    exact h.of_same (fun d => (Classes.classAddIvar_same name size alignment d).2)
      fun d => (Classes.classAddIvar_same name size alignment d).1

/-! ## Behind `_objc_init` -/

/-- The slots of an image have the selectors of their names, in every later table. -/
lemma fixupSlots_eq (table : Table) (names : List String) :
    ∀ p ∈ fixupSlots copies table names, p.1 ∈ names ∧
      ∀ table', Extends (fixup copies table names) table' → p.2 = selOf copies table' p.1 := by
  induction names generalizing table with
  | nil => exact nofun
  | cons name names ih =>
    intro p hp
    rcases List.mem_cons.mp hp with rfl | hp
    · refine ⟨List.mem_cons_self, fun table' hext => selRegisterName_eq ?_⟩
      exact (fixup_extends (selRegisterName copies table (some name)).2 names).trans hext
    · obtain ⟨hmem, heq⟩ := ih _ p hp
      exact ⟨List.mem_cons_of_mem name hmem, heq⟩

/-- The slots of all images. -/
lemma selrefSlots_eq {images : List (Option Image)} {s s' : State}
    (h : registerImages copies s images = .ok s') :
    ∀ p ∈ selrefSlots copies s images, p.1 ∈ selrefs images ∧
      ∀ table', Extends s'.selectors table' → p.2 = selOf copies table' p.1 := by
  induction images generalizing s with
  | nil => exact nofun
  | cons image images ih =>
    cases image with
    | none => exact ih h
    | some image =>
      rw [selrefs, List.flatMap_cons]
      rw [registerImages] at h
      cases hone : objcRegisterImage copies s image with
      | error e =>
        rw [hone] at h
        cases h
      | ok s₁ =>
        rw [hone] at h
        intro p hp
        rw [selrefSlots, hone] at hp
        rcases List.mem_append.mp hp with hp | hp
        · obtain ⟨hmem, heq⟩ := fixupSlots_eq s.selectors image.selrefs p hp
          refine ⟨List.mem_append_left _ hmem, fun table' hext => heq table' ?_⟩
          -- the table grows behind the fixup
          have hext₁ : Extends (fixup copies s.selectors image.selrefs) s₁.selectors := by
            obtain ⟨hclasses, -⟩ := realizeClasses_eq copies
              (fixup copies s.selectors image.selrefs) s.runtime image.classlist
            rw [objcRegisterImage] at hone
            cases hrealize : realizeClasses copies (fixup copies s.selectors image.selrefs)
                s.runtime image.classlist with
            | mk res table₁ =>
              rw [hrealize] at hone hclasses
              cases res with
              | error e => cases hone
              | ok r =>
                cases hone
                exact hclasses
          exact (hext₁.trans ((registerImages_eq copies s₁ images).1 s' h).1).trans hext
        · obtain ⟨hmem, heq⟩ := ih h p hp
          exact ⟨List.mem_append_right _ hmem, heq⟩

/-- Methods for a class object leave the caches. -/
lemma cache_addMethods (c : ℕ) (ml : List RawMethod) (d : ℕ) :
    ((Classes.addMethods r c ml).classes d).cache = (r.classes d).cache := by
  unfold Classes.addMethods
  cases (r.classes c).rw with
  | none => rfl
  | some rw =>
    rcases eq_or_ne d c with rfl | hne
    · simp
    · simp [hne]

/-- Categories leave the caches. -/
lemma cache_attachAll (cats : List (Option Category)) (d : ℕ) :
    ((attachAll r cats).classes d).cache = (r.classes d).cache := by
  induction cats generalizing r with
  | nil => rfl
  | cons cat cats ih =>
    refine ih.trans ?_
    cases cat with
    | none => rfl
    | some cat =>
      change ((Classes.attachCategory r cat).classes d).cache = (r.classes d).cache
      rw [Classes.attachCategory]
      cases ((Classes.addMethods r cat.cls cat.instanceMethods).classes cat.cls).isa with
      | none => exact cache_addMethods ..
      | some m => exact (cache_addMethods ..).trans (cache_addMethods ..)

/-- No class object has a cache, and what is not of the images is not realized. -/
structure Untouched (img : Images) (r : Runtime) : Prop where
  /-- Caches. -/
  cache : ∀ c, (r.classes c).cache = none
  /-- Other class objects. -/
  others : ∀ c, img.count ≤ c → (r.classes c).rw = none

/-- The realization of one class touches that class only. -/
lemma Untouched.keptByOne {img : Images} (c : ℕ) : KeptByOne img c (Untouched img) := by
  intro r d r' h _ hd _ _ _ hr
  refine ⟨fun e => (hr.cache_eq e).trans (h.cache e), fun e he => ?_⟩
  rw [hr.others e (by omega)]
  exact h.others e he

/-- Behind `_objc_init` no class has a cache, and the methods are those of the images. -/
lemma untouched_objcInit (program : Program) {s : State}
    (h : objcInit copies (start program.img) program.images = .ok s) :
    (∀ c, (s.runtime.classes c).cache = none) ∧
      ∀ c, program.img.count ≤ c → methodsOf s.runtime c = none := by
  obtain ⟨r, hrealize, hattach⟩ := objcInit_eq copies rfl h (.refl _ s.selectors)
  have hstart : withSel (start program.img).runtime (selOf copies s.selectors) =
      Classes.start program.img (selOf copies s.selectors) := rfl
  rw [hstart] at hrealize
  rcases realizeAll_spec (fun c _ _ => Untouched.keptByOne c) program.classlist_class
    (Classes.linked_start program.img _) (Classes.closed_start program.img _)
    ⟨program.img.uncached, fun c _ => program.img.unrealized c⟩ with
    ⟨herr, -⟩ | ⟨r', hok, hr', -⟩
  · rw [herr] at hrealize
    cases hrealize
  obtain rfl : r' = r := Except.ok.inj (hok.symm.trans hrealize)
  constructor
  · intro c
    change ((withSel s.runtime (selOf copies s.selectors)).classes c).cache = none
    rw [hattach, cache_attachAll]
    exact hr'.cache c
  · intro c hc
    change methodsOf (withSel s.runtime (selOf copies s.selectors)) c = none
    rw [hattach, (methodsOf_attachAll _).1, methodsOf, hr'.others c hc]
    rfl

/-- The methods of a class object behind `_objc_init` are declared by the images. -/
lemma Program.mem_of_method (program : Program) (hc : c < program.img.count) {m : RawMethod}
    (hm : m ∈ (program.img.classes c).ro.baseMethods ++
      allAdditions program.isa program.attached c) :
    m.name ∈ program.names ∧ (m.name, m.imp) ∈ program.declared := by
  rcases List.mem_append.mp hm with hm | hm
  · constructor
    · exact List.mem_append_left _ (program.bases.mem c hc m hm)
    · refine List.mem_append_left _ (List.mem_flatMap.mpr ⟨c, List.mem_range.mpr hc, ?_⟩)
      exact List.mem_map_of_mem hm
  · obtain ⟨cat, hcat, hm⟩ := List.mem_flatMap.mp hm
    cases cat with
    | none => cases hm
    | some cat =>
      have hin : some cat ∈ catlists program.images := List.mem_of_mem_take hcat
      have hm' : m ∈ cat.instanceMethods ++ cat.classMethods := by
        rw [Option.elim_some, additions, List.mem_append] at hm
        rcases hm with hm | hm
        · split at hm
          · exact List.mem_append_left _ hm
          · cases hm
        · split at hm
          · exact List.mem_append_right _ hm
          · cases hm
      constructor
      · exact List.mem_append_right _ (List.mem_flatMap.mpr ⟨some cat, hin, List.mem_map_of_mem hm'⟩)
      · exact List.mem_append_right _ (List.mem_flatMap.mpr ⟨some cat, hin, List.mem_map_of_mem hm'⟩)

/-- **`_objc_init` leaves the selectors consistent**, where there is room for the names of the
images. -/
theorem consistent_boot (program : Program) {s : State}
    (h : objcInit copies (start program.img) program.images = .ok s)
    (hnames : program.names.dedup.length ≤ objcMaxSelectors) :
    Consistent copies (boot copies program s) := by
  obtain ⟨hwithin, hsettled⟩ := objcInit_within program h
  obtain ⟨hcache, hothers⟩ := untouched_objcInit program h
  refine ⟨fun p hp => ?_, fun c ms hms m hm => ?_, fun c cache hc => ?_, nofun⟩
  · -- the slots of the selector references
    rw [objcInit] at h
    cases hreg : registerImages copies (start program.img) program.images with
    | error e =>
      rw [hreg] at h
      cases h
    | ok s₁ =>
      rw [hreg] at h
      obtain rfl := Except.ok.inj h
      obtain ⟨hmem, heq⟩ := selrefSlots_eq hreg p hp
      refine ⟨hwithin.mem_of_settled hnames ?_ (hsettled p.1 hmem), heq _ ?_⟩
      · exact List.mem_append_left _ (List.mem_append_left _ hmem)
      · exact (attachAll_eq copies s₁.selectors s₁.runtime s₁.pendingCats).1
  · -- the methods of the class objects
    rcases Nat.lt_or_ge c program.img.count with hc | hc
    · have hown := fun table' (hext : Extends s.selectors table') =>
        (methodsOf_objcInit program h hext hc).1
      have hms' : methodsOf s.runtime c = some ms := hms
      rw [hown s.selectors (.refl _ _), Option.some_inj] at hms'
      rw [← hms', named, List.mem_map] at hm
      obtain ⟨raw, hraw, rfl⟩ := hm
      obtain ⟨hname, hdecl⟩ := program.mem_of_method hc hraw
      refine ⟨raw.name, hwithin.mem_of_settled hnames hname ?_, rfl, hdecl⟩
      refine settled_of_stable copies fun table' hext => ?_
      have heq := (hown table' hext).symm.trans (hown s.selectors (.refl _ _))
      exact congrArg Method.name (List.map_inj_left.mp (Option.some_inj.mp heq) raw hraw)
    · have hms' : methodsOf s.runtime c = some ms := hms
      rw [hothers c hc] at hms'
      cases hms'
  · have hc' : (s.runtime.classes c).cache = some cache := hc
    rw [hcache c] at hc'
    cases hc'

/-! ## Runs -/

/-- **Messages go by name** as long as every name gets a place in the table. For every program whose
images have no more names than that, and every run of calls behind `_objc_init` of which each finds
its name in the table or room for it, the selectors that `sel_registerName` returned, in the slots of
the images too, are the same exactly for the same names, and every message reached code that was
declared for its name. -/
theorem byName (copies : Copies) (program : Program) {s : State} {w : World} {calls : List Call}
    (h : objcInit copies (start program.img) program.images = .ok s)
    (hnames : program.names.dedup.length ≤ objcMaxSelectors)
    (hrun : Transition.exec (step copies) (boot copies program s) calls = some w)
    (hplaces : Transition.Along (step copies) HasPlace (boot copies program s) calls) :
    ByName w := by
  have hw : Consistent copies w :=
    Transition.invariant_along (fun _ _ _ hw hplace hs => hw.step hplace hs)
      (consistent_boot program h hnames) hplaces hrun
  exact hw.goesByName

/-- A full table gives a new name the null selector. -/
lemma selRegisterName_full {table : Table} (hnew : name ∉ table)
    (hfull : objcMaxSelectors ≤ table.length) :
    Selectors.selRegisterName copies table (some name) = (0, table) := by
  rw [Selectors.selRegisterName, Intern.lookup, if_neg hnew]
  dsimp only
  rw [if_pos hfull]

end

/-- A new method, and messages for it and for an old one. -/
theorem byName_newMethod :
    ∃ s w, objcInit Copies.adjacent (start Classes.rootAndSub)
        (rootAndSub (greeting "bar") rfl).images = .ok s ∧
      Transition.exec (step Copies.adjacent)
        (boot Copies.adjacent (rootAndSub (greeting "bar") rfl) s)
        [.selRegisterName "foo", .addMethod 2 "baz" 5, .send 2 "baz", .send 2 "bar"] = some w ∧
      w.answered = [("bar", 9), ("baz", 5)] ∧ ByName w := by
  have hall : ((objcInit Copies.adjacent (start Classes.rootAndSub)
      (rootAndSub (greeting "bar") rfl).images).toOption.bind fun s =>
        (Transition.exec (step Copies.adjacent)
          (boot Copies.adjacent (rootAndSub (greeting "bar") rfl) s)
          [.selRegisterName "foo", .addMethod 2 "baz" 5, .send 2 "baz", .send 2 "bar"]).map
          fun w => (w.answered, decide (Transition.Along (step Copies.adjacent) HasPlace
            (boot Copies.adjacent (rootAndSub (greeting "bar") rfl) s)
            [.selRegisterName "foo", .addMethod 2 "baz" 5, .send 2 "baz", .send 2 "bar"]))) =
      some ([("bar", 9), ("baz", 5)], true) := by
    decide +kernel
  obtain ⟨s, hs, hrun⟩ := Option.bind_eq_some_iff.mp hall
  obtain ⟨w, hw, hpair⟩ := Option.map_eq_some_iff.mp hrun
  obtain ⟨hanswered, hplaces⟩ := Prod.mk.inj hpair
  have hok : objcInit Copies.adjacent (start Classes.rootAndSub)
      (rootAndSub (greeting "bar") rfl).images = .ok s := by
    cases hinit : objcInit Copies.adjacent (start Classes.rootAndSub)
        (rootAndSub (greeting "bar") rfl).images with
    | error e =>
      rw [hinit] at hs
      cases hs
    | ok s' =>
      rw [hinit] at hs
      exact congrArg Except.ok (Option.some.inj hs)
  exact ⟨s, w, hok, hw, hanswered, byName Copies.adjacent (rootAndSub (greeting "bar") rfl) hok
    (by decide +kernel) hw (of_decide_eq_true hplaces)⟩

/-- The root class and its subclass, with given selector references. -/
def rootAndSubWith (refs : List String) : Program where
  img := Classes.rootAndSub
  images := [some ⟨refs, [2, 0], []⟩]
  classlist_class := (rootAndSub (greeting "bar") rfl).classlist_class
  classlist_all := (rootAndSub (greeting "bar") rfl).classlist_all
  metaclass_of := metaclass_of_rootAndSub
  category_class cat hcat := by
    simp [catlists] at hcat

/-- An image that fills the table with the names of its selector references. -/
def crowded : Program := rootAndSubWith ((List.range objcMaxSelectors).map letters)

/-- The names of the selector references have no other letter. -/
lemma notMem_crowded {name : String} (hletter : ∃ a ∈ name.toList, a ≠ 'A') (hfoo : name ≠ "foo") :
    name ∉ crowded.names := by
  obtain ⟨a, ha, hne⟩ := hletter
  intro hmem
  have hcases : name ∈ (List.range objcMaxSelectors).map letters ∨ name = "foo" := by
    rcases List.mem_append.mp hmem with hmem | hmem
    · rcases List.mem_append.mp hmem with hmem | hmem
      · exact .inl (by simpa [selrefs, crowded, rootAndSubWith] using hmem)
      · obtain ⟨c, hc, hmem⟩ := List.mem_flatMap.mp hmem
        have hc' : c < 4 := List.mem_range.mp hc
        interval_cases c <;> simp_all [crowded, rootAndSubWith, Classes.rootAndSub, Classes.rootAndSubClasses,
          Classes.compiled]
    · cases hmem
  rcases hcases with hin | rfl
  · obtain ⟨i, -, rfl⟩ := List.mem_map.mp hin
    rw [letters, String.toList_ofList] at ha
    exact hne (List.eq_of_mem_replicate ha)
  · exact hfoo rfl

/-- Once an image has filled the table, two new names have the same selector. -/
theorem not_byName :
    ∃ s w, objcInit Copies.adjacent (start crowded.img) crowded.images = .ok s ∧
      Transition.exec (step Copies.adjacent) (boot Copies.adjacent crowded s)
        [.selRegisterName "bar", .selRegisterName "baz"] = some w ∧
      ("bar", 0) ∈ w.given ∧ ("baz", 0) ∈ w.given ∧ ¬ByName w := by
  rcases crowded.registers named_rootAndSub Copies.adjacent with ⟨-, hfull⟩ | ⟨s₁, hs₁, -⟩
  · exact absurd hfull (by decide)
  have hinit : objcInit Copies.adjacent (start crowded.img) crowded.images =
      .ok (objcAttachCategories Copies.adjacent s₁) := by
    rw [objcInit, hs₁]
  generalize objcAttachCategories Copies.adjacent s₁ = s at hinit
  obtain ⟨hwithin, hsettled⟩ := objcInit_within crowded hinit
  have hselrefs : selrefs crowded.images = (List.range objcMaxSelectors).map letters := by
    simp [selrefs, crowded, rootAndSubWith]
  have hfull : objcMaxSelectors ≤ s.selectors.length := by
    by_contra hroom
    have hsub : (List.range objcMaxSelectors).map letters ⊆ s.selectors := by
      intro name hname
      rcases hsettled name (hselrefs ▸ hname) with hmem | hfull
      · exact hmem
      · exact absurd hfull hroom
    have hnodup : ((List.range objcMaxSelectors).map letters).Nodup := by
      refine List.Nodup.map (fun i j hij => ?_) List.nodup_range
      have hlen := congrArg List.length (String.ofList_injective hij)
      rwa [List.length_replicate, List.length_replicate] at hlen
    have hle := (List.subperm_of_subset hnodup hsub).length_le
    rw [List.length_map, List.length_range] at hle
    exact hroom hle
  have hnull : ∀ name ∉ crowded.names,
      Selectors.selRegisterName Copies.adjacent s.selectors (some name) = (0, s.selectors) :=
    fun name hname => selRegisterName_full (fun hmem => hname (hwithin.subset hmem)) hfull
  have hbar := hnull "bar" (notMem_crowded ⟨'b', by decide, by decide⟩ (by decide))
  have hbaz := hnull "baz" (notMem_crowded ⟨'b', by decide, by decide⟩ (by decide))
  have hrun : Transition.exec (step Copies.adjacent) (boot Copies.adjacent crowded s)
      [.selRegisterName "bar", .selRegisterName "baz"] =
        some { boot Copies.adjacent crowded s with
          given := ("baz", 0) :: ("bar", 0) :: selrefSlots Copies.adjacent (start crowded.img)
            crowded.images } := by
    simp only [Transition.exec, step, World.register, boot, hbar, hbaz]
  have hmem : ("bar", 0) ∈ ("baz", 0) :: ("bar", 0) :: selrefSlots Copies.adjacent
      (start crowded.img) crowded.images := List.mem_cons_of_mem _ List.mem_cons_self
  refine ⟨s, _, hinit, hrun, hmem, List.mem_cons_self, fun h => ?_⟩
  have hsame := (h.selectors _ hmem _ List.mem_cons_self).mp rfl
  exact absurd hsame (by decide)

end Asteros.Objc.Startup
