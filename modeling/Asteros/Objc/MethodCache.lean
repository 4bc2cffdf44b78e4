import Asteros.Objc.Realization

set_option autoImplicit false

/-!
# Method caches

A class keeps the methods that messages were found to have, and nothing is ever taken out of a
cache. That is sound as long as a method that was found stays the one that would be found:
`class_addMethod` does not add a method for a selector that is answered already, a class made later
is nobody's superclass, and categories are attached before the first message.

The realization of a class is what can change the answer. `_objc_init` realizes every class of the
images before any code of theirs runs, so that messages only go to classes that are realized, as all
their superclasses are. A message to a class that is not realized finds the inherited method, and
the cache keeps it when the class is realized with a method of its own.

## Main definitions

* `Coherent` — what the caches have is what a lookup finds.
* `Orderly` — messages are sent to realized classes.

## Main results

* `caching` — a message finds what a lookup finds.
* `not_caching_unrealized` — not so if a message comes before the realization.
-/

namespace Asteros.Objc.Classes

open Function

variable {r r' : Runtime} {img : Images} {c d : ℕ} {sel : Sel} {imp : Imp} {m : Method}

/-! ## The loops over a cache -/

/-- What a bucket with a selector has, the cache has for the selector. -/
lemma cachedFrom_sound {cache : Cache} {left i : ℕ} (h : cachedFrom cache sel left i = some imp) :
    ∃ k, cache k = ⟨sel, imp⟩ := by
  induction left generalizing i with
  | zero => cases h
  | succ left ih =>
    rw [cachedFrom] at h
    split at h
    · next hsel => exact ⟨bucketAt sel i, congrArg₂ Bucket.mk hsel (Option.some.inj h)⟩
    · split at h
      · cases h
      · exact ih h

/-- A bucket of a filled cache is one of the cache, or the new one. -/
lemma fillFrom_apply (cache : Cache) (left i : ℕ) (k : Fin cacheSize) :
    fillFrom cache sel imp left i k = cache k ∨ fillFrom cache sel imp left i k = ⟨sel, imp⟩ := by
  induction left generalizing i with
  | zero => exact .inl rfl
  | succ left ih =>
    rw [fillFrom]
    split
    · rcases eq_or_ne k (bucketAt sel i) with rfl | hne
      · exact .inr (update_self ..)
      · exact .inl (update_of_ne hne ..)
    · exact ih (i + 1)

/-! ## Lookup -/

/-- Of a class only its methods matter for the lookup. -/
lemma ownMethod_eq (c : ℕ) :
    ownMethod r sel c =
      ((r.classes c).rw.map ClassRw.methods).bind fun ms => ms.find? fun m => m.name == sel := by
  rw [ownMethod]
  cases (r.classes c).rw <;> rfl

/-- A lookup finds the method of the class, or what is found from the superclass. -/
lemma classLookupMethodT_eq (h : Ancestry.Earlier r.superclass) (c : ℕ) :
    classLookupMethodT r c sel =
      (ownMethod r sel c).or ((r.superclass c).bind fun p => classLookupMethodT r p sel) := by
  rw [classLookupMethodT, Runtime.chain, Ancestry.chain_eq h, List.findSome?_cons]
  cases ownMethod r sel c with
  | some m => rfl
  | none => cases r.superclass c <;> rfl

/-- A lookup depends on the classes it visits only. -/
lemma classLookupMethodT_congr (hchain : r'.chain c = r.chain c)
    (hown : ∀ d ∈ r.chain c, ownMethod r' sel d = ownMethod r sel d) :
    classLookupMethodT r' c sel = classLookupMethodT r c sel := by
  rw [classLookupMethodT, classLookupMethodT, hchain]
  generalize r.chain c = l at hown
  induction l with
  | nil => rfl
  | cons d l ih =>
    rw [List.findSome?_cons, List.findSome?_cons, hown d List.mem_cons_self,
      ih fun e he => hown e (List.mem_cons_of_mem _ he)]

/-- **A method that is added takes nobody's place**: what a lookup found before, it finds. -/
theorem classLookupMethodT_addMethod (hl : Ancestry.Earlier r.superclass) (name : Sel) (code : Imp)
    (h : classLookupMethodT r c sel = some m) :
    classLookupMethodT (classAddMethod r d name code).2 c sel = some m := by
  rw [classAddMethod]
  cases hrw : (r.classes d).rw with
  | none => exact h
  | some rw =>
    dsimp only
    split
    · exact h
    next hnew =>
    have hsup : (r.setClass d { r.classes d with rw := some (rwAppendMethod rw name code) }).superclass
        = r.superclass := Runtime.superclass_setClass rfl
    rw [Option.not_isSome_iff_eq_none] at hnew
    induction c using Ancestry.induction hl with
    | hstep c ih =>
      rw [classLookupMethodT_eq hl] at h
      rw [classLookupMethodT_eq (hsup ▸ hl), hsup]
      cases hown : ownMethod r sel c with
      | some m' =>
        -- the method of the class comes before the new one
        rw [hown, Option.some_or] at h
        have hown' : ownMethod (r.setClass d { r.classes d with
            rw := some (rwAppendMethod rw name code) }) sel c = some m' := by
          rcases eq_or_ne c d with rfl | hne
          · rw [ownMethod, hrw, Option.bind_some] at hown
            rw [ownMethod, Runtime.setClass_self, Option.bind_some, rwAppendMethod,
              List.find?_append, hown, Option.some_or]
          · rw [ownMethod, Runtime.setClass_of_ne hne, ← ownMethod, hown]
        rw [hown', Option.some_or, h]
      | none =>
        rw [hown, Option.none_or] at h
        obtain ⟨p, hp, hfound⟩ := Option.bind_eq_some_iff.mp h
        have hrest := ih p hp hfound
        have hown' : ownMethod (r.setClass d { r.classes d with
            rw := some (rwAppendMethod rw name code) }) sel c = none := by
          rcases eq_or_ne c d with rfl | hne
          · -- the new selector is not the one that was found
            have hsel : name ≠ sel := by
              rintro rfl
              rw [classLookupMethodT_eq hl, hown, Option.none_or, hp, Option.bind_some, hfound] at hnew
              cases hnew
            rw [ownMethod, hrw, Option.bind_some] at hown
            rw [ownMethod, Runtime.setClass_self, Option.bind_some, rwAppendMethod,
              List.find?_append, hown, Option.none_or]
            simp [hsel]
          · rw [ownMethod, Runtime.setClass_of_ne hne, ← ownMethod, hown]
        rw [hown', Option.none_or, hp, Option.bind_some, hrest]

/-! ## Coherence -/

/-- What the caches have is what a lookup finds, and only classes that are realized with all their
superclasses have caches. -/
structure Coherent (r : Runtime) : Prop where
  /-- A bucket has what is found. -/
  found : ∀ c cache, (r.classes c).cache = some cache → ∀ k, (cache k).sel ≠ 0 →
    (classLookupMethodT r c (cache k).sel).map Method.imp = some (cache k).imp
  /-- The classes with caches are realized, and so are their superclasses. -/
  settled : ∀ c cache, (r.classes c).cache = some cache → ∀ d ∈ r.chain c, r.isRealized d
  /-- They exist. -/
  known : ∀ c cache, (r.classes c).cache = some cache → c < r.next
  /-- Before the first message there are none. -/
  quiet : r.sent = false → ∀ c, (r.classes c).cache = none

/-- Messages are sent to classes that are realized with all their superclasses, with a selector, and
categories are attached before the first message. -/
def Orderly (r : Runtime) : Op → Prop
  | .attachCategory _ => r.sent = false
  | .send c sel => sel ≠ 0 ∧ ∀ d ∈ r.chain c, r.isRealized d
  | _ => True

instance : DecidableRel Orderly := fun r op =>
  match op with
  | .attachCategory _ => inferInstanceAs (Decidable (r.sent = false))
  | .send c sel => inferInstanceAs (Decidable (sel ≠ 0 ∧ ∀ d ∈ r.chain c, r.isRealized d))
  | .realize _ | .allocateClassPair _ _ _ | .registerClassPair _ | .addMethod _ _ _
  | .addIvar _ _ _ _ => inferInstanceAs (Decidable True)

/-- The caches stay coherent when they stay as they are, and what was found is found. -/
lemma Coherent.mono (h : Coherent r) (hcache : ∀ c, (r'.classes c).cache = (r.classes c).cache)
    (hchain : ∀ c < r.next, r'.chain c = r.chain c) (hnext : r.next ≤ r'.next)
    (hreal : ∀ c < r.next, r.isRealized c → r'.isRealized c)
    (hearlier : Ancestry.Earlier r.superclass) (hsent : r'.sent = r.sent)
    (hfound : ∀ c < r.next, (∀ d ∈ r.chain c, r.isRealized d) → ∀ sel m,
      classLookupMethodT r c sel = some m → classLookupMethodT r' c sel = some m) :
    Coherent r' := by
  constructor
  · intro c cache hc k hk
    rw [hcache] at hc
    obtain ⟨m, hm, himp⟩ := Option.map_eq_some_iff.mp (h.found c cache hc k hk)
    rw [hfound c (h.known c cache hc) (h.settled c cache hc) _ m hm, Option.map_some, himp]
  · intro c cache hc d hd
    rw [hcache] at hc
    have hlt := h.known c cache hc
    rw [hchain c hlt] at hd
    exact hreal d ((Ancestry.le_of_mem_chain hearlier hd).trans_lt hlt)
      (h.settled c cache hc d hd)
  · intro c cache hc
    rw [hcache] at hc
    exact (h.known c cache hc).trans_le hnext
  · intro hs c
    rw [hcache]
    exact h.quiet (hsent ▸ hs) c

/-- Before the first message anything that makes no cache may happen. -/
lemma Coherent.of_quiet (hcache : ∀ c, (r.classes c).cache = none) : Coherent r := by
  refine ⟨fun c cache hc => ?_, fun c cache hc => ?_, fun c cache hc => ?_, fun _ => hcache⟩ <;>
  · rw [hcache] at hc
    cases hc

/-- The realization of a class is not noticed by a class that is realized with its superclasses. -/
lemma Coherent.realizes (hl : Linked img r) (h : Coherent r) (hd : r.isRealized d = false)
    (hr : Realizes r d r') : Coherent r' := by
  have hchain : ∀ c, r'.chain c = r.chain c := fun c => by
    rw [Runtime.chain, Runtime.chain, hr.superclass_eq]
  refine h.mono hr.cache_eq (fun c _ => hchain c) hr.next_eq.ge (fun c _ => hr.isRealized_mono)
    hl.earlier hr.sent_eq fun c _ hreal sel m hm => ?_
  rw [classLookupMethodT_congr (hchain c) fun e he => ?_, hm]
  have hne : e ≠ d := by
    rintro rfl
    rw [hreal e he] at hd
    cases hd
  rw [ownMethod, ownMethod, hr.others e hne]

/-- A class that is made is not noticed by those that exist. -/
lemma Coherent.allocates {superclass : Option ℕ} {name : String} {extraBytes : ℕ}
    (hl : Linked img r) (h : Coherent r) (hsuper : ∀ p ∈ superclass, p < r.next)
    (ha : Allocates r superclass name extraBytes r') : Coherent r' := by
  have hchain : ∀ c < r.next, r'.chain c = r.chain c := fun c hc => ha.chain_eq hl hsuper hc
  have hnone : ∀ c, r.next ≤ c → (r.classes c).cache = none := by
    intro c hc
    cases hcache : (r.classes c).cache with
    | none => rfl
    | some cache => exact absurd (h.known c cache hcache) (by omega)
  refine h.mono (fun c => ?_) hchain ?_ (fun c hc hreal => ?_) hl.earlier ha.sent_eq
    fun c hc _ sel m hm => ?_
  · rcases eq_or_ne c r.next with rfl | hne
    · rw [ha.cls, hnone _ (Nat.le_refl _), allocatedClass]
    rcases eq_or_ne c (r.next + 1) with rfl | hne'
    · rw [ha.metaCls, hnone _ (Nat.le_succ _), allocatedMeta]
    · rw [ha.others c hne hne']
  · rw [ha.next_eq]
    omega
  · rw [ha.isRealized_eq hc, hreal]
  · rw [classLookupMethodT_congr (hchain c hc) fun e he => ?_, hm]
    have hlt : e < r.next := (Ancestry.le_of_mem_chain hl.earlier he).trans_lt hc
    rw [ownMethod, ownMethod, ha.classes_eq hlt]

/-- A method that is added to a class is not noticed. -/
lemma Coherent.addMethod (hl : Linked img r) (h : Coherent r) (name : Sel) (code : Imp) :
    Coherent (classAddMethod r c name code).2 := by
  have hu := classAddMethod_updates (r := r) (c := c) name code
  refine h.mono (fun d => ?_) (fun d _ => hu.chain_eq d) hu.next_eq.ge
    (fun d _ hd => (hu.isRealized_eq d).trans hd) hl.earlier ?_
    fun d _ _ sel m hm => classLookupMethodT_addMethod hl.earlier name code hm
  · rcases eq_or_ne d c with rfl | hne
    · rw [classAddMethod]
      split
      · rfl
      · split
        · rfl
        · rw [Runtime.setClass_self]
    · rw [hu.others d hne]
  · rw [classAddMethod]
    split
    · rfl
    · split <;> rfl

/-- An instance variable leaves the caches and the methods. -/
lemma classAddIvar_same (name : String) (size alignment d : ℕ) :
    ((classAddIvar r c name size alignment).2.classes d).cache = (r.classes d).cache ∧
      ((classAddIvar r c name size alignment).2.classes d).rw.map ClassRw.methods =
        (r.classes d).rw.map ClassRw.methods := by
  have hu := classAddIvar_updates (r := r) (c := c) name size alignment
  rcases eq_or_ne d c with rfl | hne
  · rw [classAddIvar]
    split
    · exact ⟨rfl, rfl⟩
    · next rw hrw => simp [hrw]
  · rw [hu.others d hne]
    exact ⟨rfl, rfl⟩

/-- An instance variable is not noticed. -/
lemma Coherent.addIvar (hl : Linked img r) (h : Coherent r) (name : String) (size alignment : ℕ) :
    Coherent (classAddIvar r c name size alignment).2 := by
  have hu := classAddIvar_updates (r := r) (c := c) name size alignment
  have hsame := classAddIvar_same (r := r) (c := c) name size alignment
  refine h.mono (fun d => (hsame d).1) (fun d _ => hu.chain_eq d) hu.next_eq.ge
    (fun d _ hd => (hu.isRealized_eq d).trans hd) hl.earlier ?_ fun d _ _ sel m hm => ?_
  · rw [classAddIvar]
    split <;> rfl
  · rw [classLookupMethodT_congr (hu.chain_eq d) fun e _ => ?_, hm]
    rw [ownMethod_eq, ownMethod_eq, (hsame e).2]

/-- What a message finds is what a lookup finds, and it aborts when that finds nothing. -/
lemma Coherent.lookup (h : Coherent r) (hsel : sel ≠ 0) :
    (objcClassLookupAndCache r c sel).map Prod.fst =
      (classLookupMethodT r c sel).map Method.imp := by
  rw [objcClassLookupAndCache]
  dsimp only
  cases hhit : cachedFrom (ensureCache r c) sel cacheSize 0 with
  | none => cases classLookupMethodT r c sel <;> rfl
  | some imp =>
    obtain ⟨k, hk⟩ := cachedFrom_sound hhit
    cases hc : (r.classes c).cache with
    | none =>
      rw [ensureCache, hc, Option.getD_none, emptyCache] at hk
      exact absurd (congrArg Bucket.sel hk).symm hsel
    | some cache =>
      rw [ensureCache, hc, Option.getD_some] at hk
      have hfound := h.found c cache hc k (by rw [hk]; exact hsel)
      rw [hk] at hfound
      rw [hfound, Option.map_some]

/-- **What a message leaves**: the cache of the class has the buckets of the old one, and what was
found just now. -/
lemma objcClassLookupAndCache_cache (hs : objcClassLookupAndCache r c sel = some (imp, r')) :
    ∃ cache : Cache,
      r' = { r.setClass c { r.classes c with cache := some cache } with sent := true } ∧
        ∀ k, cache k = ensureCache r c k ∨ ∃ m, classLookupMethodT r c sel = some m ∧
          cache k = ⟨sel, m.imp⟩ := by
  rw [objcClassLookupAndCache] at hs
  dsimp only at hs
  split at hs
  · cases hs
    exact ⟨_, rfl, fun k => .inl rfl⟩
  · split at hs
    · cases hs
    · next m hm =>
      cases hs
      exact ⟨_, rfl, fun k => (fillFrom_apply ..).imp_right fun hk => ⟨m, hm, hk⟩⟩

/-- **What a message answers**: what is in a bucket, or the code of the method that is found. -/
lemma objcClassLookupAndCache_imp (hs : objcClassLookupAndCache r c sel = some (imp, r')) :
    (∃ k, ensureCache r c k = ⟨sel, imp⟩) ∨
      ∃ m, classLookupMethodT r c sel = some m ∧ m.imp = imp := by
  rw [objcClassLookupAndCache] at hs
  dsimp only at hs
  split at hs
  · next hhit =>
    cases hs
    exact .inl (cachedFrom_sound hhit)
  · split at hs
    · cases hs
    · next m hm =>
      cases hs
      exact .inr ⟨m, hm, rfl⟩

/-- A message leaves the caches coherent. -/
lemma Coherent.send (h : Coherent r) (hlt : c < r.next) (hreal : ∀ d ∈ r.chain c, r.isRealized d)
    (hs : objcClassLookupAndCache r c sel = some (imp, r')) : Coherent r' := by
  have hu := lookupAndCache_updates hs
  obtain ⟨cache, rfl, hcache⟩ := objcClassLookupAndCache_cache hs
  have hlookup : ∀ d name, classLookupMethodT
      { r.setClass c { r.classes c with cache := some cache } with sent := true } d name =
        classLookupMethodT r d name := by
    intro d name
    refine classLookupMethodT_congr (hu.chain_eq d) fun e _ => ?_
    rcases eq_or_ne e c with rfl | hne
    · simp [ownMethod]
    · rw [ownMethod, ownMethod, hu.others e hne]
  constructor
  · intro d cache' hd k hk
    rw [hlookup]
    rcases eq_or_ne d c with rfl | hne
    · simp only [Runtime.setClass_self, Option.some.injEq] at hd
      subst hd
      rcases hcache k with hold | ⟨m, hm, hnew⟩
      · rw [hold] at hk ⊢
        cases hc : (r.classes d).cache with
        | none =>
          rw [ensureCache, hc, Option.getD_none] at hk
          exact absurd rfl hk
        | some old =>
          rw [ensureCache, hc, Option.getD_some] at hk ⊢
          exact h.found d old hc k hk
      · rw [hnew, hm, Option.map_some]
    · rw [hu.others d hne] at hd
      exact h.found d cache' hd k hk
  · intro d cache' hd e he
    rw [hu.chain_eq] at he
    rw [hu.isRealized_eq]
    rcases eq_or_ne d c with rfl | hne
    · exact hreal e he
    · rw [hu.others d hne] at hd
      exact h.settled d cache' hd e he
  · intro d cache' hd
    rcases eq_or_ne d c with rfl | hne
    · exact hlt
    · rw [hu.others d hne] at hd
      exact h.known d cache' hd
  · intro hs
    cases hs

/-! ## Runs -/

/-- What holds of the runtime in the runs in question. -/
structure Cached (img : Images) (r : Runtime) : Prop where
  /-- The links. -/
  linked : Linked img r
  /-- The superclasses and metaclasses of realized classes. -/
  closed : Closed img r
  /-- The caches. -/
  coherent : Coherent r

/-- A call in order keeps the caches coherent. -/
lemma cached_step {op : Op} (h : Cached img r) (ho : Orderly r op) (hs : step r op = some r') :
    Cached img r' := by
  obtain ⟨hl', hcl'⟩ := linked_step h.linked h.closed hs
  refine ⟨hl', hcl', ?_⟩
  cases op with
  | realize c =>
    have hkept : KeptByOne img c Coherent := fun r d r' hp hl _ hd _ _ hr => hp.realizes hl hd hr
    exact (step_realize hkept h.linked h.closed h.coherent hs).1
  | attachCategory cat =>
    rw [step, Option.ite_none_right_eq_some] at hs
    obtain rfl := Option.some.inj hs.2
    have hquiet := h.coherent.quiet ho
    have hadd : ∀ (r : Runtime) c ml, (∀ d, (r.classes d).cache = none) →
        ∀ d, ((addMethods r c ml).classes d).cache = none := by
      intro r c ml hnone d
      rcases eq_or_ne d c with rfl | hne
      · rw [addMethods]
        split
        · exact hnone d
        · rw [Runtime.setClass_self]
          exact hnone d
      · rw [(addMethods_updates ml).others d hne]
        exact hnone d
    refine .of_quiet ?_
    rw [attachCategory]
    have hfirst := hadd r cat.cls cat.instanceMethods hquiet
    cases ((addMethods r cat.cls cat.instanceMethods).classes cat.cls).isa with
    | none => exact hfirst
    | some m => exact hadd _ m cat.classMethods hfirst
  | allocateClassPair superclass name extraBytes =>
    rw [step, Option.ite_none_right_eq_some] at hs
    obtain ⟨hsuper, hs⟩ := hs
    obtain rfl := Option.some.inj hs
    rcases objcAllocateClassPair_allocates superclass name extraBytes with heq | ha
    · rw [heq]
      exact h.coherent
    · exact h.coherent.allocates h.linked hsuper ha
  | registerClassPair c =>
    rw [step, Option.ite_none_right_eq_some] at hs
    have heq := objcRegisterDynamicClass_eq hs.2
    subst heq
    exact h.coherent.mono (fun _ => rfl) (fun _ _ => rfl) (Nat.le_refl _) (fun _ _ => id)
      h.linked.earlier rfl fun _ _ _ _ _ => id
  | addMethod c name code =>
    rw [step, Option.ite_none_right_eq_some] at hs
    obtain rfl := Option.some.inj hs.2
    exact h.coherent.addMethod h.linked name code
  | addIvar c name size alignment =>
    rw [step, Option.ite_none_right_eq_some] at hs
    obtain rfl := Option.some.inj hs.2
    exact h.coherent.addIvar h.linked name size alignment
  | send c sel =>
    rw [step, Option.ite_none_right_eq_some] at hs
    obtain ⟨⟨imp, r''⟩, hlookup, rfl⟩ := Option.map_eq_some_iff.mp hs.2
    exact h.coherent.send hs.1 ho.2 hlookup

/-- **Caching does not change dispatch**: in every run in which messages are sent to classes that
are realized with all their superclasses, and categories are attached before the first message, the
implementation that a message finds through the cache is the one that the lookup in the classes
finds at that moment, and it aborts when that finds none.

**Proof sketch.** The buckets of the caches have what a lookup finds. A method that is added is for
a selector that the class does not answer, so what a lookup found stays; a class that is realized or
made has no subclass with a cache. A bucket is found by its selector only, so that neither the order
of the buckets nor a full table matters. -/
theorem caching (img : Images) (selRegisterName : String → Sel) {ops : List Op}
    (hrun : Transition.exec step (start img selRegisterName) ops = some r)
    (hops : Transition.Along step Orderly (start img selRegisterName) ops) (c : ℕ)
    (hsel : sel ≠ 0) :
    (objcClassLookupAndCache r c sel).map Prod.fst =
      (classLookupMethodT r c sel).map Method.imp := by
  have hstart : Cached img (start img selRegisterName) :=
    ⟨linked_start img selRegisterName, closed_start img selRegisterName, .of_quiet img.uncached⟩
  exact (Transition.invariant_along (fun _ _ _ h ho hs => cached_step h ho hs) hstart hops
    hrun).coherent.lookup hsel

/-- A message to a class made by the program finds the inherited method, before and after a method
for another selector is added to the class. -/
theorem caching_allocated :
    ∃ r, Transition.exec step (start rootAndSub fun _ => 16)
        [.realize 2, .attachCategory ⟨0, [⟨"foo", 5⟩], []⟩, .allocateClassPair (some 2) "New" 0,
          .registerClassPair 4, .send 4 16, .addMethod 4 272 7, .send 4 272] = some r ∧
      (objcClassLookupAndCache r 4 16).map Prod.fst = (classLookupMethodT r 4 16).map Method.imp := by
  obtain ⟨r, hr⟩ := Option.isSome_iff_exists.mp (by decide +kernel :
    (Transition.exec step (start rootAndSub fun _ => 16)
      [.realize 2, .attachCategory ⟨0, [⟨"foo", 5⟩], []⟩, .allocateClassPair (some 2) "New" 0,
        .registerClassPair 4, .send 4 16, .addMethod 4 272 7, .send 4 272]).isSome)
  exact ⟨r, hr, caching rootAndSub (fun _ => 16) hr (by decide +kernel) 4 (by decide)⟩

/-- **A message before the realization**: a subclass that is not realized answers with the inherited
method, and goes on to do so from its cache once it is realized with a method of its own. -/
theorem not_caching_unrealized :
    (Transition.exec step (start rootAndSub fun _ => 16)
        [.realize 0, .send 2 16, .realize 2]).map (fun r =>
      ((objcClassLookupAndCache r 2 16).map Prod.fst, (classLookupMethodT r 2 16).map Method.imp)) =
        some (some 1, some 2) := by
  decide +kernel

end Asteros.Objc.Classes
