import Asteros.Objc.Startup

set_option autoImplicit false

/-!
# The names that the images bring

While the images are registered and their categories attached, the names that come up are those of
their selector references, of the methods of their classes and of the methods of their categories.
As long as there are no more of these than the table of the selectors has places, every one is in the
table in the end, and so has a selector of its own.

## Main definitions

* `Program.names` — the names that come up.
* `Within` — the table has some of given names only.

## Main results

* `objcInit_within` — `_objc_init` enters no other names.
* `Within.mem_of_settled` — where there is room for the names, what has come up is in the table.
-/

namespace Asteros.Objc.Startup

open Classes (Sel Imp RawMethod Method ClassRw Runtime Halt Category Images maxClasses)
open Selectors

/-! ## Names -/

/-- The names of the selector references of images. -/
def selrefs (images : List (Option Image)) : List String :=
  images.flatMap fun image => image.elim [] Image.selrefs

/-- The names of the methods of the class objects of a program, and of its selector references. -/
def Program.registeredNames (program : Program) : List String :=
  selrefs program.images ++ (List.range program.img.count).flatMap fun c =>
    (program.img.classes c).ro.baseMethods.map RawMethod.name

/-- The names of the methods of a category. -/
def categoryNames (cat : Category) : List String :=
  (cat.instanceMethods ++ cat.classMethods).map RawMethod.name

/-- The names that come up in `_objc_init`. -/
def Program.names (program : Program) : List String :=
  program.registeredNames ++
    (catlists program.images).flatMap fun cat => cat.elim [] categoryNames

/-- A table that has some of given names, each once. -/
structure Within (names : List String) (table : Table) : Prop where
  /-- Each once. -/
  nodup : table.Nodup
  /-- No others. -/
  subset : table ⊆ names

/-- The class objects below a number are linked among themselves, and their methods have given
names. -/
structure Bases (names : List String) (n : ℕ) (r : Runtime) : Prop where
  /-- Superclasses. -/
  superclass_lt : ∀ c < n, ∀ p, r.superclass c = some p → p < n
  /-- Metaclasses. -/
  isa_lt : ∀ c < n, ∀ m, (r.classes c).isa = some m → m < n
  /-- The names. -/
  mem : ∀ c < n, ∀ m ∈ (r.classes c).ro.baseMethods, m.name ∈ names

section

variable {copies : Copies} {names : List String} {table : Table} {n c : ℕ} {r : Runtime}

/-- A name is entered, or not. -/
lemma Within.enter {name : String} (h : Within names table) (hname : name ∈ names) :
    Within names (selRegisterName copies table (some name)).2 := by
  rw [selRegisterName_enter]
  exact ⟨Intern.nodup_enter h.nodup _ name, Intern.enter_subset h.subset hname _⟩

/-- Where there is room for the names, what has come up is in the table. -/
lemma Within.mem_of_settled {name : String} (h : Within names table)
    (hroom : names.dedup.length ≤ objcMaxSelectors) (hname : name ∈ names)
    (hsettled : Intern.Settled objcMaxSelectors table name) : name ∈ table := by
  have hmem := Intern.mem_enter h.nodup h.subset hroom hname
  unfold Intern.enter at hmem
  rcases hsettled with hin | hfull
  · exact hin
  · split at hmem
    · exact hmem
    · rwa [if_pos hfull] at hmem

/-- The names of selector references. -/
lemma Within.fixup {refs : List String} (h : Within names table) (hrefs : refs ⊆ names) :
    Within names (fixup copies table refs) := by
  induction refs generalizing table with
  | nil => exact h
  | cons name refs ih =>
    exact ih (h.enter (hrefs List.mem_cons_self)) fun a ha => hrefs (List.mem_cons_of_mem name ha)

/-- The names of methods. -/
lemma Within.rwAddMethods {rw : ClassRw} {ml : List RawMethod} (h : Within names table)
    (hml : ∀ m ∈ ml, m.name ∈ names) : Within names (rwAddMethods copies table rw ml).2 := by
  induction ml generalizing table rw with
  | nil => exact h
  | cons m ml ih =>
    exact ih (h.enter (hml m List.mem_cons_self)) fun a ha => hml a (List.mem_cons_of_mem m ha)

/-- A class object that is changed keeps its links and its methods. -/
lemma Bases.of_eq {r' : Runtime} (h : Bases names n r)
    (hsuper : r'.superclass = r.superclass) (hisa : ∀ c, (r'.classes c).isa = (r.classes c).isa)
    (hbase : ∀ c, (r'.classes c).ro.baseMethods = (r.classes c).ro.baseMethods) :
    Bases names n r' where
  superclass_lt := by rw [hsuper]; exact h.superclass_lt
  isa_lt c hc m hm := h.isa_lt c hc m (hisa c ▸ hm)
  mem c hc m hm := h.mem c hc m (hbase c ▸ hm)

/-- One class. -/
lemma Bases.realizeOne (copies : Copies) (h : Bases names n r) (ht : Within names table) (hc : c < n) :
    Within names (realizeOne copies table r c).2 ∧
      ∀ r', (realizeOne copies table r c).1 = some r' → Bases names n r' := by
  refine ⟨ht.rwAddMethods (h.mem c hc), fun r' hr' => ?_⟩
  rw [Classes.objcRegisterDynamicClass_eq hr']
  have hsame : ∀ d, ∀ {α : Type} (view : Classes.ClassT → α) (ct : Classes.ClassT),
      view ct = view (r.classes c) → view ((r.setClass c ct).classes d) = view (r.classes d) := by
    intro d α view ct hview
    rcases eq_or_ne d c with rfl | hne
    · rw [Classes.Runtime.setClass_self, hview]
    · rw [Classes.Runtime.setClass_of_ne hne]
  refine h.of_eq (funext fun d => ?_) (fun d => ?_) fun d => ?_
  · exact hsame d Classes.ClassT.superclass _ rfl
  · exact hsame d Classes.ClassT.isa _ rfl
  · exact hsame d (fun ct => ct.ro.baseMethods) _ rfl

/-- **The realization of a class enters names of methods only.** -/
lemma Bases.realizeClass (copies : Copies) (fuel : ℕ) (h : Bases names n r)
    (ht : Within names table) (hc : c < n) :
    Within names (realizeClass copies fuel table r c).2 ∧
      ∀ r', (realizeClass copies fuel table r c).1 = .ok r' → Bases names n r' := by
  induction fuel generalizing table r c with
  | zero => exact ⟨ht, fun _ h => by cases h⟩
  | succ fuel ih =>
    have helim : ∀ {table : Table} {r : Runtime} (o : Option ℕ), Bases names n r →
        Within names table → (∀ p, o = some p → p < n) →
        Within names (o.elim (.ok r, table) (Startup.realizeClass copies fuel table r)).2 ∧
          ∀ r', (o.elim (.ok r, table) (Startup.realizeClass copies fuel table r)).1 = .ok r' →
            Bases names n r' := by
      intro table r o h ht ho
      cases o with
      | none =>
        refine ⟨ht, fun r' hr' => ?_⟩
        obtain rfl := Except.ok.inj hr'
        exact h
      | some p => exact ih h ht (ho p rfl)
    simp only [Startup.realizeClass]
    by_cases hreal : r.isRealized c = true
    · simp only [hreal, ↓reduceIte]
      refine ⟨ht, fun r' hr' => ?_⟩
      obtain rfl := Except.ok.inj hr'
      exact h
    · simp only [hreal, Bool.false_eq_true, ↓reduceIte]
      obtain ⟨ht₁, hr₁⟩ := helim (r.superclass c) h ht (h.superclass_lt c hc)
      cases hfirst : (r.superclass c).elim (.ok r, table)
          (Startup.realizeClass copies fuel table r) with
      | mk res₁ table₁ =>
        rw [hfirst] at ht₁ hr₁
        cases res₁ with
        | error e => exact ⟨ht₁, fun _ h => by cases h⟩
        | ok r₁ =>
          dsimp only
          obtain ⟨ht₂, hr₂⟩ := (hr₁ r₁ rfl).realizeOne copies ht₁ hc
          cases hsecond : Startup.realizeOne copies table₁ r₁ c with
          | mk res₂ table₂ =>
            rw [hsecond] at ht₂ hr₂
            cases res₂ with
            | none => exact ⟨ht₂, fun _ h => by cases h⟩
            | some r₂ => exact helim _ (hr₂ r₂ rfl) ht₂ ((hr₂ r₂ rfl).isa_lt c hc)

/-- The classes of an image. -/
lemma Bases.realizeClasses (copies : Copies) {cs : List ℕ} (h : Bases names n r)
    (ht : Within names table) (hcs : ∀ c ∈ cs, c < n) :
    Within names (realizeClasses copies table r cs).2 ∧
      ∀ r', (realizeClasses copies table r cs).1 = .ok r' → Bases names n r' := by
  induction cs generalizing table r with
  | nil =>
    refine ⟨ht, fun r' hr' => ?_⟩
    obtain rfl := Except.ok.inj hr'
    exact h
  | cons c cs ih =>
    obtain ⟨ht₁, hr₁⟩ := h.realizeClass copies (Classes.realizeFuel c) ht
      (hcs c List.mem_cons_self)
    rw [Startup.realizeClasses]
    cases hfirst : Startup.realizeClass copies (Classes.realizeFuel c) table r c with
    | mk res₁ table₁ =>
      rw [hfirst] at ht₁ hr₁
      cases res₁ with
      | error e =>
        refine ⟨ht₁, fun r' hr' => ?_⟩
        cases hr'
      | ok r₁ => exact ih (hr₁ r₁ rfl) ht₁ fun d hd => hcs d (List.mem_cons_of_mem c hd)

/-- The names of selector references have come up behind the fixup. -/
lemma fixup_settled {refs : List String} {name : String} (hname : name ∈ refs) :
    Intern.Settled objcMaxSelectors (fixup copies table refs) name := by
  induction refs generalizing table with
  | nil => cases hname
  | cons ref refs ih =>
    rcases List.mem_cons.mp hname with rfl | hname
    · have hsettled := Intern.settled_enter objcMaxSelectors table name
      have hext : Extends (selRegisterName copies table (some name)).2
          (fixup copies (selRegisterName copies table (some name)).2 refs) := fixup_extends _ refs
      rw [selRegisterName_enter] at hext
      refine hsettled.mono ?_
      rw [fixup, List.foldl_cons, selRegisterName_enter]
      exact hext
    · exact ih hname

/-- **The images are registered with their own names only**, and the names of their selector
references have come up. -/
lemma Bases.registerImages {images : List (Option Image)} {s s' : State}
    (h : Bases names n s.runtime) (ht : Within names s.selectors)
    (hrefs : selrefs images ⊆ names) (hclasses : ∀ c ∈ classlists images, c < n)
    (hs : registerImages copies s images = .ok s') :
    Within names s'.selectors ∧ Bases names n s'.runtime ∧
      ∀ name ∈ selrefs images, Intern.Settled objcMaxSelectors s'.selectors name := by
  induction images generalizing s with
  | nil =>
    cases hs
    exact ⟨ht, h, nofun⟩
  | cons image images ih =>
    cases image with
    | none => exact ih h ht hrefs hclasses hs
    | some image =>
      have hrefs' : image.selrefs ⊆ names ∧ selrefs images ⊆ names := by
        rw [selrefs, List.flatMap_cons] at hrefs
        exact List.append_subset.mp hrefs
      have hclasses' : (∀ c ∈ image.classlist, c < n) ∧ ∀ c ∈ classlists images, c < n := by
        rw [classlists, List.flatMap_cons] at hclasses
        exact ⟨fun c hc => hclasses c (List.mem_append_left _ hc),
          fun c hc => hclasses c (List.mem_append_right _ hc)⟩
      rw [Startup.registerImages, objcRegisterImage] at hs
      obtain ⟨ht₁, hr₁⟩ := h.realizeClasses copies (ht.fixup hrefs'.1) hclasses'.1
      obtain ⟨hext₁, -⟩ := realizeClasses_eq copies (Selectors.fixup copies s.selectors
        image.selrefs) s.runtime image.classlist
      cases hfirst : Startup.realizeClasses copies
          (Selectors.fixup copies s.selectors image.selrefs) s.runtime image.classlist with
      | mk res₁ table₁ =>
        rw [hfirst] at ht₁ hr₁ hs hext₁
        cases res₁ with
        | error e => cases hs
        | ok r₁ =>
          obtain ⟨ht₂, hr₂, hsettled⟩ := ih (hr₁ r₁ rfl) ht₁ hrefs'.2 hclasses'.2 hs
          refine ⟨ht₂, hr₂, fun name hname => ?_⟩
          rw [selrefs, List.flatMap_cons] at hname
          rcases List.mem_append.mp hname with hname | hname
          · have hext₂ := ((registerImages_eq copies _ images).1 s' hs).1
            exact ((fixup_settled hname).mono hext₁).mono hext₂
          · exact hsettled name hname

/-- The methods of a category. -/
lemma Within.addMethods (copies : Copies) (c : ℕ) (r : Runtime) {ml : List RawMethod} (ht : Within names table)
    (hml : ∀ m ∈ ml, m.name ∈ names) : Within names (addMethods copies table r c ml).2 := by
  rw [Startup.addMethods]
  cases (r.classes c).rw with
  | none => exact ht
  | some rw => exact ht.rwAddMethods hml

/-- The categories. -/
lemma Within.attachAll {cats : List (Option Category)} (ht : Within names table)
    (hcats : ∀ cat, some cat ∈ cats → categoryNames cat ⊆ names) :
    Within names (cats.foldl (fun a cat => attachCategory copies a.2 a.1 cat) (r, table)).2 := by
  induction cats generalizing table r with
  | nil => exact ht
  | cons cat cats ih =>
    refine ih ?_ fun cat' hcat' => hcats cat' (List.mem_cons_of_mem cat hcat')
    cases cat with
    | none => exact ht
    | some cat =>
      have hmem : ∀ m ∈ cat.instanceMethods ++ cat.classMethods, m.name ∈ names := fun m hm =>
        hcats cat List.mem_cons_self (List.mem_map_of_mem hm)
      have hfirst := ht.addMethods copies cat.cls r
        fun m hm => hmem m (List.mem_append_left _ hm)
      change Within names (attachCategory copies table r (some cat)).2
      rw [attachCategory]
      cases ((Startup.addMethods copies table r cat.cls cat.instanceMethods).1.classes cat.cls).isa
        with
      | none => exact hfirst
      | some m => exact hfirst.addMethods copies m _ fun m hm => hmem m (List.mem_append_right _ hm)

/-- The class objects of a program are linked among themselves. -/
lemma Program.bases (program : Program) :
    Bases program.registeredNames program.img.count (start program.img).runtime where
  superclass_lt c hc p hp := (program.img.superclass_lt c p hp).trans hc
  isa_lt := program.img.isa_lt
  mem c hc m hm := by
    refine List.mem_append_right _ (List.mem_flatMap.mpr ⟨c, List.mem_range.mpr hc, ?_⟩)
    exact List.mem_map_of_mem hm

/-- The lists of classes of a program have its classes. -/
lemma Program.classlist_lt (program : Program) : ∀ c ∈ classlists program.images,
    c < program.img.count :=
  fun c hc => (program.classlist_class c hc).1

/-- **`_objc_init` enters the names of the images only**, and those of their selector references
have come up. -/
theorem objcInit_within (program : Program) {s : State}
    (h : objcInit copies (start program.img) program.images = .ok s) :
    Within program.names s.selectors ∧
      ∀ name ∈ selrefs program.images, Intern.Settled objcMaxSelectors s.selectors name := by
  rw [objcInit] at h
  cases hreg : registerImages copies (start program.img) program.images with
  | error e =>
    rw [hreg] at h
    cases h
  | ok s₁ =>
    rw [hreg] at h
    obtain rfl := Except.ok.inj h
    have hnames : program.registeredNames ⊆ program.names := List.subset_append_left _ _
    have hempty : Within program.registeredNames (start program.img).selectors :=
      ⟨List.nodup_nil, List.nil_subset _⟩
    obtain ⟨ht, -, hsettled⟩ := program.bases.registerImages hempty
      (List.subset_append_left _ _) program.classlist_lt hreg
    obtain ⟨-, -, hpending⟩ := (registerImages_eq copies _ _).1 s₁ hreg
    have hcats := hpending [] rfl
    rw [List.nil_append] at hcats
    have hwithin : Within program.names s₁.selectors := ⟨ht.nodup, List.Subset.trans ht.subset hnames⟩
    refine ⟨?_, fun name hname => ?_⟩
    · refine hwithin.attachAll fun cat hcat => ?_
      rw [hcats] at hcat
      intro name hname
      refine List.mem_append_right _ (List.mem_flatMap.mpr ⟨some cat, ?_, hname⟩)
      exact List.mem_of_mem_take hcat
    · exact (hsettled name hname).mono (attachAll_eq copies _ _ _).1

/-- A name that has the same selector in all later tables has come up. -/
lemma settled_of_stable (copies : Copies) {name : String}
    (h : ∀ table', Extends table table' → selOf copies table' name = selOf copies table name) :
    Intern.Settled objcMaxSelectors table name := by
  by_contra hnot
  rw [Intern.Settled, not_or] at hnot
  have hext : Extends table (table ++ [name]) :=
    ⟨List.prefix_append table [name], fun hfull => absurd hfull hnot.2⟩
  have heq := h _ hext
  rw [selOf_eq_zero hnot.1] at heq
  exact selOf_ne_zero (List.mem_append_right table List.mem_cons_self) heq

end

end Asteros.Objc.Startup
