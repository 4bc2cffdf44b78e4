import Asteros.Lib.Ancestry
import Asteros.Lib.Transition
import Mathlib.Algebra.Ring.Int.Defs
import Mathlib.Algebra.Ring.Nat
import Mathlib.Logic.Function.Basic

set_option autoImplicit false

/-!
# Classes of the Objective-C runtime

`class.c`, `runtime.c` and `dispatch.c`: the classes of images, which are realized when the image is
registered, the classes that a program makes itself, their methods and instance variables, and the
lookup of a method through the cache of a class.

A class object is named by a number, a selector and an implementation by an address. The numbers are
those of some order in which a superclass comes before its subclasses; the code never compares them
except for equality. An image is linked without cycles of superclasses, so there is such an order.

Calls of `malloc` are taken to succeed. The texts of types, protocols and properties are left out:
nothing here reads them.

## Main definitions

* `ClassT`, `Runtime` — the data.
* `realizeClass` — the realization of the class of an image.
* `objcAllocateClassPair`, `classAddMethod`, `classAddIvar` — classes made by a program.
* `classLookupMethodT`, `objcClassLookupAndCache` — the lookup of a method, and the one that a
  message goes through.
* `step` — one call of the interface.
* `Images` — the classes that images come with.
-/

namespace Asteros.Objc.Classes

open Function

/-! ## Data -/

/-- `SEL`: the address of the one copy of a name; zero is no selector. -/
abbrev Sel := ℕ

/-- `IMP`: the address of the code of a method. -/
abbrev Imp := ℕ

/-- `OBJC_CACHE_SIZE`. -/
abbrev cacheSize : ℕ := 16

/-- `OBJC_MAX_CLASSES`. -/
def maxClasses : ℕ := 512

/-- A `method_t` as an image has it, with the text of its name. -/
structure RawMethod where
  /-- The name. -/
  name : String
  /-- The code. -/
  imp : Imp
  deriving DecidableEq

/-- A `method_t` of a realized class. -/
structure Method where
  /-- The name, as the selector of it. -/
  name : Sel
  /-- The code. -/
  imp : Imp
  deriving DecidableEq

/-- An `ivar_t`, with the value of the offset that it points to. -/
structure Ivar where
  /-- The name. -/
  name : String
  /-- `*offset`, which is an `int32_t`. -/
  offset : ℤ
  /-- The binary logarithm of the alignment. -/
  alignment : ℕ
  /-- The size. -/
  size : ℕ
  deriving DecidableEq

/-- `class_ro_t`: what the compiler knows of a class. -/
structure ClassRo where
  /-- `flags & RO_META`. -/
  isMeta : Bool
  /-- The name. -/
  name : String
  /-- `baseMethods`. -/
  baseMethods : List RawMethod
  /-- `ivars`. -/
  ivars : List Ivar

/-- `class_rw_t`: what a class has once it is realized. -/
structure ClassRw where
  /-- `methods`. -/
  methods : List Method
  /-- `extra_ivars`. -/
  extraIvars : List Ivar
  /-- `instance_size`, which is a `uint32_t`. -/
  instanceSize : ℕ

/-- `cache_bucket`. -/
structure Bucket where
  /-- The selector, or zero if the bucket is empty. -/
  sel : Sel
  /-- The code it was found to have. -/
  imp : Imp
  deriving DecidableEq

/-- The buckets of a `method_cache`. -/
abbrev Cache := Fin cacheSize → Bucket

/-- What `calloc` gives: all buckets are empty. -/
def emptyCache : Cache := fun _ => ⟨0, 0⟩

/-- `class_t`. -/
structure ClassT where
  /-- `isa`: the metaclass. -/
  isa : Option ℕ
  /-- `superclass`. -/
  superclass : Option ℕ
  /-- `cache`, if the class has one of its own and not `_objc_empty_cache`. -/
  cache : Option Cache
  /-- What `data` points to before the class is realized, and `data->ro` behind it. -/
  ro : ClassRo
  /-- What `data` points to once the class is realized. -/
  rw : Option ClassRw

/-- The runtime. -/
structure Runtime where
  /-- The class objects. -/
  classes : ℕ → ClassT
  /-- The number of the next class object to be made. -/
  next : ℕ
  /-- `g_classes`. -/
  registered : List ℕ
  /-- `sel_registerName`: the address of the copy that is kept of a name, or zero if the table was
  full when the name came up. -/
  selRegisterName : String → Sel
  /-- History: a message was sent. -/
  sent : Bool

namespace Runtime

variable (r : Runtime)

/-- The runtime with another class object under a number. -/
def setClass (c : ℕ) (ct : ClassT) : Runtime :=
  { r with classes := update r.classes c ct }

/-- `getSuperclass` of a class that is not null. -/
def superclass (c : ℕ) : Option ℕ := (r.classes c).superclass

/-- `class_rw` is not null. -/
def isRealized (c : ℕ) : Bool := (r.classes c).rw.isSome

/-- The classes that a loop over the superclasses visits. -/
def chain (c : ℕ) : List ℕ := Ancestry.chain r.superclass c

end Runtime

/-! ## Realization -/

/-- `objc_register_dynamic_class`; `none` is the `abort` when the table is full. -/
def objcRegisterDynamicClass (r : Runtime) (c : ℕ) : Option Runtime :=
  if r.registered.length < maxClasses then some { r with registered := r.registered ++ [c] }
  else none

/-- `rw_append_method`. -/
def rwAppendMethod (rw : ClassRw) (name : Sel) (imp : Imp) : ClassRw :=
  { rw with methods := rw.methods ++ [⟨name, imp⟩] }

/-- `rw_add_methods`. -/
def rwAddMethods (selRegisterName : String → Sel) (rw : ClassRw) (ml : List RawMethod) : ClassRw :=
  ml.foldl (fun rw m => rwAppendMethod rw (selRegisterName m.name) m.imp) rw

/-- `class_getInstanceSize` of a class that is not null. -/
def classGetInstanceSize (r : Runtime) (c : ℕ) : ℕ := (r.classes c).rw.elim 0 ClassRw.instanceSize

/-- `1u << alignment`: the machine takes the count modulo the width. -/
def alignBytes (alignment : ℕ) : ℕ := 2 ^ (alignment % 32)

/-- `(size + align - 1) & ~(align - 1)` on 32 bits. -/
def alignUp (size align : ℕ) : ℕ := (size + align - 1) % 2 ^ 32 &&& (2 ^ 32 - align)

/-- The conversion from `uint32_t` to `int32_t`. -/
def toInt32 (n : ℕ) : ℤ := if n < 2 ^ 31 then n else n - 2 ^ 32

/-- The loop of `realize_class` over the instance variables, from the size so far: the variables with
their new offsets, and the size behind the last. -/
def layoutIvars : ℕ → List Ivar → List Ivar × ℕ
  | size, [] => ([], size)
  | size, iv :: ivs =>
    let offset := alignUp size (alignBytes iv.alignment)
    let rest := layoutIvars ((offset + iv.size) % 2 ^ 32) ivs
    ({ iv with offset := toInt32 offset } :: rest.1, rest.2)

/-- What `realize_class` makes of a class whose superclass is realized. -/
def realizedClass (r : Runtime) (c : ℕ) : ClassT :=
  let ct := r.classes c
  let layout := layoutIvars (ct.superclass.elim 0 (classGetInstanceSize r)) ct.ro.ivars
  let rw : ClassRw := ⟨[], [], layout.2⟩
  { ct with
    ro := { ct.ro with ivars := layout.1 }
    rw := some (rwAddMethods r.selRegisterName rw ct.ro.baseMethods) }

/-- The part of `realize_class` between its two recursive calls. -/
def realizeOne (r : Runtime) (c : ℕ) : Option Runtime :=
  objcRegisterDynamicClass (r.setClass c (realizedClass r c)) c

/-- Why a realization has no result. -/
inductive Halt where
  /-- The table of classes is full, and the process aborts. -/
  | tooManyClasses
  /-- The bound on the recursion of the model was too small. -/
  | outOfFuel
  deriving DecidableEq

/-- `realize_class`, with a bound on its recursion. -/
def realizeClass : ℕ → Runtime → ℕ → Except Halt Runtime
  | 0, _, _ => .error .outOfFuel
  | fuel + 1, r, c =>
    if r.isRealized c then .ok r
    else
      match (r.superclass c).elim (.ok r) (realizeClass fuel r) with
      | .error e => .error e
      | .ok r₁ =>
        match realizeOne r₁ c with
        | none => .error .tooManyClasses
        | some r₂ => (r₂.classes c).isa.elim (.ok r₂) (realizeClass fuel r₂)

/-- A bound that is enough for the classes of images. -/
def realizeFuel (c : ℕ) : ℕ := c + 3

/-- `category_t`. -/
structure Category where
  /-- `cls`. -/
  cls : ℕ
  /-- `instanceMethods`. -/
  instanceMethods : List RawMethod
  /-- `classMethods`. -/
  classMethods : List RawMethod

/-- Methods for a class, if it is realized. -/
def addMethods (r : Runtime) (c : ℕ) (ml : List RawMethod) : Runtime :=
  match (r.classes c).rw with
  | none => r
  | some rw => r.setClass c { r.classes c with rw := some (rwAddMethods r.selRegisterName rw ml) }

/-- The body of the loop of `objc_attach_categories`. -/
def attachCategory (r : Runtime) (cat : Category) : Runtime :=
  let r₁ := addMethods r cat.cls cat.instanceMethods
  (r₁.classes cat.cls).isa.elim r₁ fun m => addMethods r₁ m cat.classMethods

/-! ## Classes made by a program -/

/-- `objc_getClass`. -/
def objcGetClass (r : Runtime) (name : String) : Option ℕ :=
  r.registered.find? fun c => (r.classes c).ro.name == name

/-- The class that `objc_allocateClassPair` makes. -/
def allocatedClass (r : Runtime) (superclass : Option ℕ) (name : String) (extraBytes : ℕ) :
    ClassT where
  isa := some (r.next + 1)
  superclass := superclass
  cache := none
  ro := ⟨false, name, [], []⟩
  rw := some ⟨[], [],
    (superclass.elim 8 (classGetInstanceSize r) + extraBytes % 2 ^ 32) % 2 ^ 32⟩

/-- The metaclass that it makes. -/
def allocatedMeta (r : Runtime) (superclass : Option ℕ) (name : String) : ClassT where
  isa := superclass.elim (some (r.next + 1)) fun p => (r.classes p).isa
  superclass := superclass.bind fun p => (r.classes p).isa
  cache := none
  ro := ⟨true, name, [], []⟩
  rw := some ⟨[], [], 0⟩

/-- `objc_allocateClassPair`: the class and its metaclass get the next two numbers; nothing changes
if the name is in use. -/
def objcAllocateClassPair (r : Runtime) (superclass : Option ℕ) (name : String)
    (extraBytes : ℕ) : Option ℕ × Runtime :=
  if (objcGetClass r name).isSome then (none, r)
  else
    (some r.next,
      { (r.setClass r.next (allocatedClass r superclass name extraBytes)).setClass (r.next + 1)
          (allocatedMeta r superclass name) with next := r.next + 2 })

/-- `class_addIvar`. -/
def classAddIvar (r : Runtime) (c : ℕ) (name : String) (size alignment : ℕ) : Bool × Runtime :=
  match (r.classes c).rw with
  | none => (false, r)
  | some rw =>
    let offset := alignUp rw.instanceSize (alignBytes alignment)
    let iv : Ivar := ⟨name, toInt32 offset, alignment, size % 2 ^ 32⟩
    (true, r.setClass c { r.classes c with
      rw := some { rw with
        extraIvars := rw.extraIvars ++ [iv]
        instanceSize := (offset + size % 2 ^ 32) % 2 ^ 32 } })

/-! ## Lookup -/

/-- The first method of that name that a class has itself; a class that is not realized is passed
over. -/
def ownMethod (r : Runtime) (sel : Sel) (c : ℕ) : Option Method :=
  (r.classes c).rw.bind fun rw => rw.methods.find? fun m => m.name == sel

/-- `class_lookup_method_t`. -/
def classLookupMethodT (r : Runtime) (c : ℕ) (sel : Sel) : Option Method :=
  (r.chain c).findSome? (ownMethod r sel)

/-- `class_addMethod`. -/
def classAddMethod (r : Runtime) (c : ℕ) (name : Sel) (imp : Imp) : Bool × Runtime :=
  match (r.classes c).rw with
  | none => (false, r)
  | some rw =>
    if (classLookupMethodT r c name).isSome then (false, r)
    else (true, r.setClass c { r.classes c with rw := some (rwAppendMethod rw name imp) })

/-- `cache_index`. -/
def cacheIndex (sel : Sel) : ℕ := sel / 2 ^ 4 % cacheSize

/-- The bucket that the loops over a cache look at after `i` others. -/
def bucketAt (sel : Sel) (i : ℕ) : Fin cacheSize :=
  ⟨(cacheIndex sel + i) % cacheSize, Nat.mod_lt _ (by decide)⟩

/-- The first loop of `objc_class_lookup_and_cache`, with the given number of buckets left. -/
def cachedFrom (cache : Cache) (sel : Sel) : ℕ → ℕ → Option Imp
  | 0, _ => none
  | left + 1, i =>
    let b := cache (bucketAt sel i)
    if b.sel = sel then some b.imp
    else if b.sel = 0 then none
    else cachedFrom cache sel left (i + 1)

/-- The second loop of `objc_class_lookup_and_cache`, with the given number of buckets left. -/
def fillFrom (cache : Cache) (sel : Sel) (imp : Imp) : ℕ → ℕ → Cache
  | 0, _ => cache
  | left + 1, i =>
    let b := cache (bucketAt sel i)
    if b.sel = 0 ∨ b.sel = sel then update cache (bucketAt sel i) ⟨sel, imp⟩
    else fillFrom cache sel imp left (i + 1)

/-- `ensure_cache`. -/
def ensureCache (r : Runtime) (c : ℕ) : Cache := (r.classes c).cache.getD emptyCache

/-- `objc_class_lookup_and_cache`; `none` is the `abort` for a selector that is not recognized. -/
def objcClassLookupAndCache (r : Runtime) (c : ℕ) (sel : Sel) : Option (Imp × Runtime) :=
  let cache := ensureCache r c
  let keep (cache : Cache) : Runtime :=
    { r.setClass c { r.classes c with cache := some cache } with sent := true }
  match cachedFrom cache sel cacheSize 0 with
  | some imp => some (imp, keep cache)
  | none =>
    match classLookupMethodT r c sel with
    | none => none
    | some m => some (m.imp, keep (fillFrom cache sel m.imp cacheSize 0))

/-! ## Runs -/

/-- A call of the interface. -/
inductive Op where
  /-- `realize_class` for an entry of the list of classes of an image. -/
  | realize (c : ℕ)
  /-- One category in `objc_attach_categories`. -/
  | attachCategory (cat : Category)
  /-- `objc_allocateClassPair`. -/
  | allocateClassPair (superclass : Option ℕ) (name : String) (extraBytes : ℕ)
  /-- `objc_registerClassPair`. -/
  | registerClassPair (c : ℕ)
  /-- `class_addMethod`. -/
  | addMethod (c : ℕ) (name : Sel) (imp : Imp)
  /-- `class_addIvar`. -/
  | addIvar (c : ℕ) (name : String) (size alignment : ℕ)
  /-- `objc_msgSend`, as far as the lookup of the method. -/
  | send (c : ℕ) (sel : Sel)

/-- One call; `none` if the process aborts, or the call names a class object that does not exist or
realizes a metaclass, which the list of classes of an image does not have. -/
def step (r : Runtime) : Op → Option Runtime
  | .realize c =>
    if c < r.next ∧ (r.classes c).ro.isMeta = false then
      (realizeClass (realizeFuel c) r c).toOption
    else none
  | .attachCategory cat => if cat.cls < r.next then some (attachCategory r cat) else none
  | .allocateClassPair superclass name extraBytes =>
    if ∀ p ∈ superclass, p < r.next then
      some (objcAllocateClassPair r superclass name extraBytes).2
    else none
  | .registerClassPair c => if c < r.next then objcRegisterDynamicClass r c else none
  | .addMethod c name imp => if c < r.next then some (classAddMethod r c name imp).2 else none
  | .addIvar c name size alignment =>
    if c < r.next then some (classAddIvar r c name size alignment).2 else none
  | .send c sel =>
    if c < r.next then (objcClassLookupAndCache r c sel).map Prod.snd else none

/-- The classes that images come with, as the compiler and the linker leave them: a class has its
metaclass as `isa`; the metaclasses inherit as their classes do, that of a root class from the root
class itself, and their `isa` is the metaclass of the root. -/
structure Images where
  /-- The number of class objects. -/
  count : ℕ
  /-- The class objects. -/
  classes : ℕ → ClassT
  /-- No class is realized. -/
  unrealized : ∀ c, (classes c).rw = none
  /-- No class has a cache. -/
  uncached : ∀ c, (classes c).cache = none
  /-- A superclass comes first. -/
  superclass_lt : ∀ c p, (classes c).superclass = some p → p < c
  /-- The superclass of a class is a class. -/
  superclass_class : ∀ c p, (classes c).superclass = some p → (classes c).ro.isMeta = false →
    (classes p).ro.isMeta = false
  /-- The `isa` of a class object is one. -/
  isa_lt : ∀ c < count, ∀ m, (classes c).isa = some m → m < count
  /-- A class has a metaclass. -/
  metaclass : ∀ c < count, (classes c).ro.isMeta = false →
    ∃ m, (classes c).isa = some m ∧ (classes m).ro.isMeta = true
  /-- The superclass of a metaclass. -/
  metaclass_superclass : ∀ c < count, (classes c).ro.isMeta = false →
    ∀ m, (classes c).isa = some m →
      (classes m).superclass = (classes c).superclass.elim (some c) fun p => (classes p).isa
  /-- The `isa` of a metaclass. -/
  metaclass_isa : ∀ c < count, (classes c).ro.isMeta = false →
    ∀ m, (classes c).isa = some m →
      (classes m).isa = (classes c).superclass.elim (some m) fun p =>
        (classes p).isa.bind fun q => (classes q).isa
  /-- A metaclass has no instance variables. -/
  metaclass_ivars : ∀ c < count, (classes c).ro.isMeta = true → (classes c).ro.ivars = []

/-- A class object as the compiler emits it. -/
def compiled (isMeta : Bool) (name : String) (isa : ℕ) (superclass : Option ℕ)
    (methods : List RawMethod) (ivars : List Ivar) : ClassT where
  isa := some isa
  superclass := superclass
  cache := none
  ro := ⟨isMeta, name, methods, ivars⟩
  rw := none

/-- The classes of an image with a root class and a subclass of it, and their metaclasses. -/
def rootAndSubClasses : ℕ → ClassT
  | 0 => compiled false "Root" 1 none [⟨"foo", 1⟩] [⟨"isa", 0, 3, 8⟩]
  | 1 => compiled true "Root" 1 (some 0) [] []
  | 2 => compiled false "Sub" 3 (some 0) [⟨"foo", 2⟩] [⟨"count", 0, 2, 4⟩]
  | 3 => compiled true "Sub" 1 (some 1) [] []
  | _ => compiled true "" 0 none [] []

/-- An image with a root class and a subclass of it. -/
def rootAndSub : Images where
  count := 4
  classes := rootAndSubClasses
  unrealized c := by rcases c with _ | _ | _ | _ | c <;> rfl
  uncached c := by rcases c with _ | _ | _ | _ | c <;> rfl
  superclass_lt c := by
    rcases c with _ | _ | _ | _ | c <;> simp [rootAndSubClasses, compiled]
  superclass_class c := by
    rcases c with _ | _ | _ | _ | c <;> simp [rootAndSubClasses, compiled]
  isa_lt c hc := by
    rcases c with _ | _ | _ | _ | c <;> simp [rootAndSubClasses, compiled] at hc ⊢
  metaclass c hc := by
    rcases c with _ | _ | _ | _ | c <;> simp [rootAndSubClasses, compiled] at hc ⊢
  metaclass_superclass c hc := by
    rcases c with _ | _ | _ | _ | c <;> simp [rootAndSubClasses, compiled] at hc ⊢
  metaclass_isa c hc := by
    rcases c with _ | _ | _ | _ | c <;> simp [rootAndSubClasses, compiled] at hc ⊢
  metaclass_ivars c hc := by
    rcases c with _ | _ | _ | _ | c <;> simp [rootAndSubClasses, compiled] at hc ⊢

/-- Before the first image is registered. -/
def start (img : Images) (selRegisterName : String → Sel) : Runtime where
  classes := img.classes
  next := img.count
  registered := []
  selRegisterName := selRegisterName
  sent := false

end Asteros.Objc.Classes
