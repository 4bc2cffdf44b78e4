import Asteros.Lib.Placement
import Asteros.Objc.Realization

set_option autoImplicit false

/-!
# Layout of instance variables

The instance variables of a class begin behind those of its superclass. `realize_class` lays out
those of a class of an image from the size that the superclass has at the moment, and
`class_addIvar` puts a variable behind the size of the class itself, whether or not another class
has been laid out behind it: its comment says that it is for the pair that is not registered yet,
but nothing checks that. A variable that is added to a class with a subclass overlaps what the
subclass has behind it, or lies outside its instances.

The sizes have 32 bits, and nothing checks them either. The metaclass of a pair made by a program
has no instance size at all; its instance is the class object, which `calloc` gives the size of a
`class_t`.

## Main definitions

* `slots` — the instance variables of a class and its superclasses, with the `isa` word.
* `Separate` — they do not overlap.
* `Sound` — the calls that keep it so.

## Main results

* `separate` — in runs of such calls the variables of every class are separate.
* `not_separate_addIvar` — they are not when a superclass grows.
-/

namespace Asteros.Objc.Classes

open Placement

variable {r r' : Runtime} {img : Images} {c d p : ℕ}

/-! ## What is claimed -/

/-- The `isa` word of every object. -/
def isaWord : Ivar := ⟨"isa", 0, 3, 8⟩

/-- The instance variables that a class has itself. -/
def ivarsOf (r : Runtime) (c : ℕ) : List Ivar :=
  (r.classes c).ro.ivars ++ (r.classes c).rw.elim [] ClassRw.extraIvars

/-- What a class adds to the instances of its superclass. A root class adds the `isa` word, unless
its first variable is that word. -/
def slotsOf (r : Runtime) (c : ℕ) : List Ivar :=
  if (r.superclass c).isNone ∧ (ivarsOf r c).head? ≠ some isaWord then isaWord :: ivarsOf r c
  else ivarsOf r c

/-- The instance variables of a class and of its superclasses, with the `isa` word. -/
def slots (r : Runtime) (c : ℕ) : List Ivar := (r.chain c).reverse.flatMap (slotsOf r)

/-- The offset is a multiple of the alignment. -/
def Aligned (iv : Ivar) : Prop := (2 ^ iv.alignment : ℤ) ∣ iv.offset

instance : DecidablePred Aligned := fun _ => inferInstanceAs (Decidable (_ ∣ _))

/-- The instance variables of a class and of its superclasses do not overlap, are aligned, and lie
inside the instances. -/
structure Separate (r : Runtime) (c : ℕ) : Prop where
  /-- No two overlap. -/
  disjoint : (slots r c).Pairwise fun a b =>
    a.offset + (a.size : ℤ) ≤ b.offset ∨ b.offset + (b.size : ℤ) ≤ a.offset
  /-- Each is aligned. -/
  aligned : ∀ s ∈ slots r c, Aligned s
  /-- Each lies inside. -/
  inside : ∀ s ∈ slots r c, 0 ≤ s.offset ∧ s.offset + s.size ≤ classGetInstanceSize r c

instance (r : Runtime) (c : ℕ) : Decidable (Separate r c) :=
  decidable_of_iff (((slots r c).Pairwise fun a b =>
      a.offset + (a.size : ℤ) ≤ b.offset ∨ b.offset + (b.size : ℤ) ≤ a.offset) ∧
    (∀ s ∈ slots r c, Aligned s) ∧
    ∀ s ∈ slots r c, 0 ≤ s.offset ∧ s.offset + s.size ≤ classGetInstanceSize r c)
    ⟨fun h => ⟨h.1, h.2.1, h.2.2⟩, fun h => ⟨h.disjoint, h.aligned, h.inside⟩⟩

/-- A class that is realized, and not the metaclass of a pair made by the program. -/
def Covered (img : Images) (r : Runtime) (c : ℕ) : Prop :=
  r.isRealized c = true ∧ ¬(img.count ≤ c ∧ (r.classes c).ro.isMeta = true)

instance (img : Images) (r : Runtime) (c : ℕ) : Decidable (Covered img r c) :=
  inferInstanceAs (Decidable (_ ∧ _))

/-! ## Which calls keep it so -/

/-- The instance variables can be laid out from the size in 32 bits. -/
def LaysOut : ℕ → List Ivar → Prop
  | _, [] => True
  | size, iv :: ivs =>
    iv.alignment < 32 ∧ roundUp size (2 ^ iv.alignment) < 2 ^ 31 ∧
      roundUp size (2 ^ iv.alignment) + iv.size < 2 ^ 32 ∧
      LaysOut (roundUp size (2 ^ iv.alignment) + iv.size) ivs

/-- The size behind instance variables that are laid out from a size. -/
def layoutEnd : ℕ → List Ivar → ℕ
  | size, [] => size
  | size, iv :: ivs => layoutEnd (roundUp size (2 ^ iv.alignment) + iv.size) ivs

instance decidableLaysOut : (size : ℕ) → (ivs : List Ivar) → Decidable (LaysOut size ivs)
  | _, [] => .isTrue trivial
  | size, iv :: ivs =>
    have : Decidable (LaysOut (roundUp size (2 ^ iv.alignment) + iv.size) ivs) :=
      decidableLaysOut _ ivs
    inferInstanceAs (Decidable (_ ∧ _ ∧ _ ∧ _))

/-- The instance size that the first class of a chain has, or has when the chain is realized. -/
def sizeAfter (r : Runtime) : List ℕ → ℕ
  | [] => 0
  | c :: cs =>
    if r.isRealized c then classGetInstanceSize r c
    else layoutEnd (sizeAfter r cs) (r.classes c).ro.ivars

/-- The classes of a chain that are not realized can be laid out in 32 bits. -/
def Fits (r : Runtime) : List ℕ → Prop
  | [] => True
  | c :: cs =>
    (r.isRealized c = true ∨ LaysOut (sizeAfter r cs) (r.classes c).ro.ivars) ∧ Fits r cs

instance decidableFits (r : Runtime) : (cs : List ℕ) → Decidable (Fits r cs)
  | [] => .isTrue trivial
  | _ :: cs =>
    have : Decidable (Fits r cs) := decidableFits r cs
    inferInstanceAs (Decidable (_ ∧ _))

/-- A new pair has a superclass with an instance size, if it has one, and a size of 32 bits. -/
def PairFits (img : Images) (r : Runtime) (superclass : Option ℕ) (extraBytes : ℕ) : Prop :=
  (∀ p ∈ superclass, Covered img r p) ∧
    superclass.elim 8 (classGetInstanceSize r) + extraBytes % 2 ^ 32 < 2 ^ 32

instance (img : Images) (r : Runtime) (superclass : Option ℕ) (extraBytes : ℕ) :
    Decidable (PairFits img r superclass extraBytes) :=
  inferInstanceAs (Decidable (_ ∧ _))

/-- A new variable is for a class that nothing is laid out behind, and has its place in 32 bits. -/
def IvarFits (img : Images) (r : Runtime) (c size alignment : ℕ) : Prop :=
  (∀ d < r.next, Covered img r d → r.superclass d ≠ some c) ∧ alignment < 32 ∧
    roundUp (classGetInstanceSize r c) (2 ^ alignment) < 2 ^ 31 ∧
    roundUp (classGetInstanceSize r c) (2 ^ alignment) + size < 2 ^ 32

instance (img : Images) (r : Runtime) (c size alignment : ℕ) :
    Decidable (IvarFits img r c size alignment) :=
  inferInstanceAs (Decidable (_ ∧ _))

/-- The calls that keep the instance variables separate. -/
def Sound (img : Images) (r : Runtime) : Op → Prop
  | .realize c => Fits r (r.chain c)
  | .allocateClassPair superclass name extraBytes =>
    (objcGetClass r name).isSome = true ∨ PairFits img r superclass extraBytes
  | .addIvar c _ size alignment => Covered img r c → IvarFits img r c size alignment
  | _ => True

instance (img : Images) : DecidableRel (Sound img) := fun r op => by
  cases op <;> unfold Sound <;> infer_instance

/-- The root classes of the images begin with the `isa` word. -/
def RootsHaveIsa (img : Images) : Prop :=
  ∀ c < img.count, (img.classes c).superclass = none →
    ((img.classes c).ro.ivars.head?.map fun iv => (iv.name, iv.alignment, iv.size)) =
      some ("isa", 3, 8)

instance (img : Images) : Decidable (RootsHaveIsa img) := by
  unfold RootsHaveIsa
  infer_instance

/-! ## The layout of one class -/

/-- Instance variables lie one behind another. -/
abbrev PlacedIvars (low : ℤ) (ivs : List Ivar) (high : ℤ) : Prop :=
  Placed Ivar.offset Ivar.size Aligned low ivs high

/-- In 32 bits, the code rounds up. -/
lemma alignUp_eq {size k : ℕ} (hk : k < 32) (h : roundUp size (2 ^ k) < 2 ^ 31) :
    alignUp size (alignBytes k) = roundUp size (2 ^ k) := by
  have hle : size ≤ roundUp size (2 ^ k) := le_roundUp size (Nat.two_pow_pos k)
  have hpow : 2 ^ k ≤ 2 ^ 31 := Nat.pow_le_pow_right (by decide) (by omega)
  have hlt : size + 2 ^ k - 1 < 2 ^ 32 := by omega
  rw [alignUp, alignBytes, Nat.mod_eq_of_lt hk, Nat.mod_eq_of_lt hlt, and_mask_eq hlt hk.le,
    roundUp]

/-- The place of a variable that is rounded up. -/
lemma aligned_roundUp {size k : ℕ} (name : String) (bytes : ℕ) (h : roundUp size (2 ^ k) < 2 ^ 31) :
    (⟨name, toInt32 (roundUp size (2 ^ k)), k, bytes⟩ : Ivar).offset = roundUp size (2 ^ k) ∧
      Aligned ⟨name, toInt32 (roundUp size (2 ^ k)), k, bytes⟩ := by
  have hval : toInt32 (roundUp size (2 ^ k)) = roundUp size (2 ^ k) := if_pos h
  refine ⟨hval, ?_⟩
  rw [Aligned]
  dsimp only
  rw [hval]
  exact_mod_cast dvd_roundUp size (2 ^ k)

/-- **Variables that are laid out** lie one behind another, from the size at first to the one at the
end. -/
theorem layoutIvars_spec {size : ℕ} {ivs : List Ivar} (h : LaysOut size ivs) (hs : size < 2 ^ 32) :
    (layoutIvars size ivs).2 = layoutEnd size ivs ∧ layoutEnd size ivs < 2 ^ 32 ∧
      PlacedIvars size (layoutIvars size ivs).1 (layoutEnd size ivs) := by
  induction ivs generalizing size with
  | nil => exact ⟨rfl, hs, le_refl (size : ℤ)⟩
  | cons iv ivs ih =>
    obtain ⟨halign, hoffset, hend, hrest⟩ := h
    have hup := alignUp_eq halign hoffset
    have hle : size ≤ roundUp size (2 ^ iv.alignment) := le_roundUp size (Nat.two_pow_pos _)
    obtain ⟨hval, hal⟩ := aligned_roundUp iv.name iv.size hoffset
    obtain ⟨hsize, hbound, hplaced⟩ := ih hrest hend
    rw [layoutIvars, layoutEnd]
    dsimp only
    rw [hup, Nat.mod_eq_of_lt hend]
    refine ⟨hsize, hbound, ?_, hal, ?_⟩
    · rw [hval]
      exact_mod_cast hle
    · rw [hval]
      exact_mod_cast hplaced

/-! ## Slots -/

/-- The slots of a root class. -/
lemma slots_root (h : Ancestry.Earlier r.superclass) (hc : r.superclass c = none) :
    slots r c = slotsOf r c := by
  rw [slots, Runtime.chain, Ancestry.chain_of_root h hc]
  simp

/-- The slots of a class are those of its superclass and its own variables. -/
lemma slots_of_superclass (h : Ancestry.Earlier r.superclass) (hc : r.superclass c = some p) :
    slots r c = slots r p ++ ivarsOf r c := by
  have hown : slotsOf r c = ivarsOf r c := by
    rw [slotsOf, if_neg]
    simp [hc]
  rw [slots, Runtime.chain, Ancestry.chain_of_parent h hc, slots, Runtime.chain]
  simp [hown]

/-- The slots depend on the classes of the chain. -/
lemma slots_congr (hchain : r'.chain c = r.chain c)
    (hown : ∀ d ∈ r.chain c, slotsOf r' d = slotsOf r d) : slots r' c = slots r c := by
  rw [slots, slots, hchain, List.flatMap_def, List.flatMap_def,
    List.map_congr_left fun d hd => hown d (List.mem_reverse.mp hd)]

/-- What a class adds depends on its superclass and its variables. -/
lemma slotsOf_congr (hsuper : r'.superclass c = r.superclass c) (hivars : ivarsOf r' c = ivarsOf r c) :
    slotsOf r' c = slotsOf r c := by
  rw [slotsOf, slotsOf, hsuper, hivars]

/-! ## The invariant -/

/-- The slots of every class lie one behind another inside its instances. -/
structure Spaced (img : Images) (r : Runtime) : Prop where
  /-- The slots of a class. -/
  placed : ∀ c < r.next, Covered img r c → PlacedIvars 0 (slots r c) (classGetInstanceSize r c)
  /-- The sizes have 32 bits. -/
  bounded : ∀ c < r.next, Covered img r c → classGetInstanceSize r c < 2 ^ 32
  /-- The superclass of a class that is covered is. -/
  superclass : ∀ c < r.next, Covered img r c → ∀ p, r.superclass c = some p → Covered img r p

/-- Then no slots overlap. -/
lemma Spaced.isSeparate (h : Spaced img r) (hlt : c < r.next) (hc : Covered img r c) :
    Separate r c := by
  have hplaced := h.placed c hlt hc
  constructor
  · exact hplaced.pairwise.imp fun hab => .inl hab
  · intro s hs
    exact (hplaced.mem hs).2.2
  · intro s hs
    obtain ⟨hlow, hhigh, -⟩ := hplaced.mem hs
    exact ⟨hlow, hhigh⟩

/-- All superclasses of a class that is covered are. -/
lemma Spaced.covered_of_mem (hl : Linked img r) (h : Spaced img r) (hlt : c < r.next)
    (hc : Covered img r c) (hd : d ∈ r.chain c) : Covered img r d := by
  induction c using Ancestry.induction hl.earlier with
  | hstep c ih =>
    rcases (Ancestry.mem_chain_iff hl.earlier).mp hd with rfl | ⟨p, hp, hdp⟩
    · exact hc
    · exact ih p hp ((hl.earlier c p hp).trans hlt) (h.superclass c hlt hc p hp) hdp

/-- A call keeps the slots apart that changes neither the variables nor the sizes. -/
lemma Spaced.same (h : Spaced img r) (hu : Updates r c r')
    (hivars : ∀ d, ivarsOf r' d = ivarsOf r d)
    (hsize : ∀ d, classGetInstanceSize r' d = classGetInstanceSize r d) : Spaced img r' := by
  have hcov : ∀ d, Covered img r' d ↔ Covered img r d := fun d => by
    rw [Covered, Covered, hu.isRealized_eq, hu.ro_eq]
  constructor
  · intro d hd hc
    rw [hu.next_eq] at hd
    rw [slots_congr (hu.chain_eq d) fun e _ =>
      slotsOf_congr (congrFun hu.superclass_eq e) (hivars e), hsize]
    exact h.placed d hd ((hcov d).mp hc)
  · intro d hd hc
    rw [hu.next_eq] at hd
    rw [hsize]
    exact h.bounded d hd ((hcov d).mp hc)
  · intro d hd hc p hp
    rw [hu.next_eq] at hd
    rw [hu.superclass_eq] at hp
    exact (hcov p).mpr (h.superclass d hd ((hcov d).mp hc) p hp)

/-! ## Realization -/

/-- The size that the instances of a class begin with. -/
def sizeBefore (r : Runtime) (c : ℕ) : ℕ := (r.superclass c).elim 0 (classGetInstanceSize r)

namespace Realizes

variable (h : Realizes r d r')

include h

/-- The variables of the class are laid out behind the superclass. -/
lemma ivarsOf_self : ivarsOf r' d = (layoutIvars (sizeBefore r d) (r.classes d).ro.ivars).1 := by
  rw [ivarsOf, h.self, realizedClass]
  simp [rwAddMethods_eq, sizeBefore, Runtime.superclass]

/-- The size is the one behind them. -/
lemma size_self :
    classGetInstanceSize r' d = (layoutIvars (sizeBefore r d) (r.classes d).ro.ivars).2 := by
  rw [classGetInstanceSize, h.self, realizedClass]
  simp [rwAddMethods_eq, sizeBefore, Runtime.superclass]

/-- The variables of the others stay. -/
lemma ivarsOf_others (hc : c ≠ d) : ivarsOf r' c = ivarsOf r c := by
  rw [ivarsOf, ivarsOf, h.others c hc]

/-- So do their sizes. -/
lemma size_others (hc : c ≠ d) : classGetInstanceSize r' c = classGetInstanceSize r c := by
  rw [classGetInstanceSize, classGetInstanceSize, h.others c hc]

/-- The others are covered as before. -/
lemma covered_iff (hc : c ≠ d) : Covered img r' c ↔ Covered img r c := by
  rw [Covered, Covered, h.isRealized_iff hc, h.isMeta_eq]

end Realizes

/-- **The realization of one class keeps the slots apart**, if the class can be laid out.

**Proof sketch.** The slots of the class are those of the superclass and the variables behind its
size, or those variables behind nothing, of which the first is the `isa` word. The class is in no
chain of a class that was realized before. -/
lemma Spaced.realizes (himg : RootsHaveIsa img) (hl : Linked img r) (h : Spaced img r)
    (hd : d < img.count) (hreal : r.isRealized d = false)
    (hsuper : ∀ p, r.superclass d = some p → r.isRealized p)
    (hlays : LaysOut (sizeBefore r d) (r.classes d).ro.ivars) (hr : Realizes r d r') :
    Spaced img r' := by
  have hearlier' : Ancestry.Earlier r'.superclass := hr.superclass_eq ▸ hl.earlier
  have hcovsuper : ∀ p, r.superclass d = some p → p < r.next ∧ Covered img r p := fun p hp => by
    have hlt : p < img.count := (hl.earlier d p hp).trans hd
    exact ⟨hlt.trans_le hl.count_le, hsuper p hp, fun hge => absurd hlt (by omega)⟩
  have hnot : ∀ c < r.next, Covered img r c → ∀ e ∈ r.chain c, e ≠ d := by
    rintro c hlt hc e he rfl
    have hcov := h.covered_of_mem hl hlt hc he
    rw [hcov.1] at hreal
    cases hreal
  have hslots : ∀ c < r.next, Covered img r c → slots r' c = slots r c := fun c hlt hc =>
    slots_congr (by rw [Runtime.chain, Runtime.chain, hr.superclass_eq]) fun e he =>
      slotsOf_congr (congrFun hr.superclass_eq e) (hr.ivarsOf_others (hnot c hlt hc e he))
  have hbefore : sizeBefore r d < 2 ^ 32 := by
    rw [sizeBefore]
    cases hp : r.superclass d with
    | none => exact Nat.two_pow_pos 32
    | some p => exact h.bounded p (hcovsuper p hp).1 (hcovsuper p hp).2
  obtain ⟨hsize, hbound, hplaced⟩ := layoutIvars_spec hlays hbefore
  constructor
  · intro c hlt hc
    rw [hr.next_eq] at hlt
    rcases eq_or_ne c d with rfl | hne
    · rw [hr.size_self, hsize]
      cases hp : r.superclass c with
      | none =>
        -- the first variable of a root class is the isa word
        have hslot : slotsOf r' c = ivarsOf r' c := by
          rw [slotsOf, if_neg]
          rintro ⟨-, hhead⟩
          apply hhead
          have hisa := himg c hd (by rw [← hl.superclass_eq c hd, hp])
          rw [← hl.ro_eq c hd hreal] at hisa
          rw [hr.ivarsOf_self, sizeBefore, hp, Option.elim_none]
          cases hivs : (r.classes c).ro.ivars with
          | nil =>
            rw [hivs] at hisa
            cases hisa
          | cons iv ivs =>
            rw [hivs] at hisa
            simp only [List.head?_cons, Option.map_some, Option.some.injEq, Prod.mk.injEq] at hisa
            obtain ⟨hname, halign, hbytes⟩ := hisa
            have hzero : alignUp 0 (alignBytes 3) = 0 := by decide
            rw [layoutIvars, List.head?_cons, halign, hzero, isaWord, hname, hbytes]
            rfl
        rw [slots_root hearlier' (by rw [hr.superclass_eq, hp]), hslot, hr.ivarsOf_self]
        rw [sizeBefore, hp, Option.elim_none] at hplaced ⊢
        exact_mod_cast hplaced
      | some p =>
        obtain ⟨hplt, hpcov⟩ := hcovsuper p hp
        rw [slots_of_superclass hearlier' (by rw [hr.superclass_eq, hp]), hslots p hplt hpcov,
          hr.ivarsOf_self]
        refine (h.placed p hplt hpcov).append ?_
        rw [sizeBefore, hp, Option.elim_some] at hplaced ⊢
        exact hplaced
    · have hc' := (hr.covered_iff hne).mp hc
      rw [hslots c hlt hc', hr.size_others hne]
      exact h.placed c hlt hc'
  · intro c hlt hc
    rw [hr.next_eq] at hlt
    rcases eq_or_ne c d with rfl | hne
    · rw [hr.size_self, hsize]
      exact hbound
    · rw [hr.size_others hne]
      exact h.bounded c hlt ((hr.covered_iff hne).mp hc)
  · intro c hlt hc p hp
    rw [hr.next_eq] at hlt
    rw [hr.superclass_eq] at hp
    have hpcov : Covered img r p := by
      rcases eq_or_ne c d with rfl | hne
      · exact (hcovsuper p hp).2
      · exact h.superclass c hlt ((hr.covered_iff hne).mp hc) p hp
    have hne : p ≠ d := by
      rintro rfl
      rw [hpcov.1] at hreal
      cases hreal
    exact (hr.covered_iff hne).mpr hpcov

/-! ## Realization of a chain -/

/-- The chain of a class begins with the class. -/
lemma Runtime.chain_eq (h : Ancestry.Earlier r.superclass) (c : ℕ) :
    r.chain c = c :: (r.superclass c).elim [] r.chain :=
  Ancestry.chain_eq h c

/-- The size behind the superclasses is that of the superclass, once that is realized. -/
lemma sizeAfter_superclass (h : Ancestry.Earlier r.superclass)
    (hsuper : ∀ p, r.superclass d = some p → r.isRealized p) :
    sizeAfter r ((r.superclass d).elim [] r.chain) = sizeBefore r d := by
  rw [sizeBefore]
  cases hp : r.superclass d with
  | none => rfl
  | some p => rw [Option.elim_some, Runtime.chain_eq h, sizeAfter, if_pos (hsuper p hp),
      Option.elim_some]

/-- A part of a chain that can be laid out can be laid out. -/
lemma fits_of_mem (h : Ancestry.Earlier r.superclass) (hfits : Fits r (r.chain c))
    (hd : d ∈ r.chain c) : Fits r (r.chain d) := by
  induction c using Ancestry.induction h with
  | hstep c ih =>
    rcases (Ancestry.mem_chain_iff h).mp hd with rfl | ⟨p, hp, hdp⟩
    · exact hfits
    · rw [Runtime.chain_eq h, hp, Option.elim_some] at hfits
      exact ih p hp hfits.2 hdp

/-- A chain that can be laid out can be laid out once one of its classes is. -/
lemma Realizes.fits (h : Ancestry.Earlier r.superclass) (hr : Realizes r d r')
    (hreal : r.isRealized d = false) (hsuper : ∀ p, r.superclass d = some p → r.isRealized p)
    (hbefore : sizeBefore r d < 2 ^ 32)
    (hlays : LaysOut (sizeBefore r d) (r.classes d).ro.ivars) (c : ℕ) :
    sizeAfter r' (r'.chain c) = sizeAfter r (r.chain c) ∧
      (Fits r (r.chain c) → Fits r' (r'.chain c)) := by
  have h' : Ancestry.Earlier r'.superclass := hr.superclass_eq ▸ h
  induction c using Ancestry.induction h with
  | hstep c ih =>
    have htail : sizeAfter r' ((r'.superclass c).elim [] r'.chain) =
          sizeAfter r ((r.superclass c).elim [] r.chain) ∧
        (Fits r ((r.superclass c).elim [] r.chain) →
          Fits r' ((r'.superclass c).elim [] r'.chain)) := by
      rw [hr.superclass_eq]
      cases hp : r.superclass c with
      | none => exact ⟨rfl, id⟩
      | some p => exact ih p hp
    rw [Runtime.chain_eq h, Runtime.chain_eq h', sizeAfter, sizeAfter, Fits, Fits]
    rcases eq_or_ne c d with rfl | hne
    · refine ⟨?_, fun hf => ⟨.inl hr.isRealized_self, htail.2 hf.2⟩⟩
      rw [if_pos hr.isRealized_self, if_neg (by simp [hreal]), hr.size_self,
        (layoutIvars_spec hlays hbefore).1, sizeAfter_superclass h hsuper]
    · rw [hr.isRealized_iff hne, hr.size_others hne, hr.others c hne, htail.1]
      exact ⟨rfl, fun hf => ⟨hf.1, htail.2 hf.2⟩⟩

/-- **The realization of a class of an image keeps the slots apart**, if what is realized can be
laid out. -/
lemma Spaced.keptByOne (himg : RootsHaveIsa img) (c : ℕ) :
    KeptByOne img c fun r => Spaced img r ∧ Fits r (r.chain c) := by
  intro r d r' hp hl hd hreal hsuper hwhich hr
  have hlays : LaysOut (sizeBefore r d) (r.classes d).ro.ivars := by
    rcases hwhich with hin | ⟨hmeta, -⟩
    · have hfits := fits_of_mem hl.earlier hp.2 hin
      rw [Runtime.chain_eq hl.earlier, Fits, sizeAfter_superclass hl.earlier hsuper] at hfits
      exact hfits.1.resolve_left (by simp [hreal])
    · rw [hl.ro_eq d hd hreal, img.metaclass_ivars d hd hmeta]
      exact trivial
  have hbefore : sizeBefore r d < 2 ^ 32 := by
    rw [sizeBefore]
    cases hq : r.superclass d with
    | none => exact Nat.two_pow_pos 32
    | some p =>
      have hlt : p < img.count := (hl.earlier d p hq).trans hd
      exact hp.1.bounded p (hlt.trans_le hl.count_le) ⟨hsuper p hq, fun h => absurd hlt (by omega)⟩
  exact ⟨hp.1.realizes himg hl hd hreal hsuper hlays hr,
    (hr.fits hl.earlier hreal hsuper hbefore hlays c).2 hp.2⟩

/-! ## Classes made by a program -/

/-- What `class_addIvar` does to a class whose new variable has its place. -/
lemma classAddIvar_self {rw : ClassRw} (hrw : (r.classes c).rw = some rw) (name : String)
    (size alignment : ℕ) (halign : alignment < 32)
    (hoffset : roundUp (classGetInstanceSize r c) (2 ^ alignment) < 2 ^ 31)
    (hend : roundUp (classGetInstanceSize r c) (2 ^ alignment) + size < 2 ^ 32) :
    classGetInstanceSize (classAddIvar r c name size alignment).2 c =
        roundUp (classGetInstanceSize r c) (2 ^ alignment) + size ∧
      ivarsOf (classAddIvar r c name size alignment).2 c = ivarsOf r c ++
        [⟨name, toInt32 (roundUp (classGetInstanceSize r c) (2 ^ alignment)), alignment, size⟩] := by
  have hup := alignUp_eq halign hoffset
  have hbytes : size % 2 ^ 32 = size := Nat.mod_eq_of_lt (by omega)
  have hold : classGetInstanceSize r c = rw.instanceSize := by
    rw [classGetInstanceSize, hrw, Option.elim_some]
  rw [hold] at hup hend
  rw [classAddIvar, hrw, classGetInstanceSize, ivarsOf, ivarsOf, hold]
  simp only [Runtime.setClass_self, Option.elim_some]
  rw [hup, hbytes, Nat.mod_eq_of_lt hend, hrw, Option.elim_some, List.append_assoc]
  exact ⟨rfl, rfl⟩

/-- A variable that is put behind the others of a class is put behind the slots, as long as it is not
the `isa` word. -/
lemma slotsOf_concat {iv : Ivar} (hsuper : r'.superclass c = r.superclass c)
    (hivars : ivarsOf r' c = ivarsOf r c ++ [iv]) (hne : iv ≠ isaWord) :
    slotsOf r' c = slotsOf r c ++ [iv] := by
  rw [slotsOf, slotsOf, hsuper, hivars]
  cases ivarsOf r c with
  | nil =>
    cases r.superclass c with
    | none => simp [hne]
    | some p => simp
  | cons first rest =>
    rw [List.cons_append, List.head?_cons, List.head?_cons]
    by_cases hcond : (r.superclass c).isNone = true ∧ some first ≠ some isaWord
    · rw [if_pos hcond, if_pos hcond, List.cons_append, List.cons_append]
    · rw [if_neg hcond, if_neg hcond, List.cons_append]

/-- The `isa` word is among the slots of every class. -/
lemma isaWord_mem_slots (h : Ancestry.Earlier r.superclass) (c : ℕ) : isaWord ∈ slots r c := by
  induction c using Ancestry.induction h with
  | hstep c ih =>
    cases hp : r.superclass c with
    | some p =>
      rw [slots_of_superclass h hp]
      exact List.mem_append_left _ (ih p hp)
    | none =>
      rw [slots_root h hp, slotsOf, hp]
      by_cases hhead : (ivarsOf r c).head? = some isaWord
      · rw [if_neg (by simp [hhead])]
        exact List.mem_of_head? hhead
      · rw [if_pos ⟨rfl, hhead⟩]
        exact List.mem_cons_self

/-- **A variable that is added to a class that nothing is laid out behind** keeps the slots apart.

**Proof sketch.** The class is in no chain but its own, since a class of which it is a superclass
would have one of which it is the superclass itself. Its slots get the new variable behind them,
which begins behind the size of before, and is not the `isa` word for that. -/
lemma Spaced.addIvar (hl : Linked img r) (h : Spaced img r) (hlt : c < r.next) (name : String)
    (size alignment : ℕ) (hfit : Covered img r c → IvarFits img r c size alignment) :
    Spaced img (classAddIvar r c name size alignment).2 := by
  have hu := classAddIvar_updates (r := r) (c := c) name size alignment
  cases hrw : (r.classes c).rw with
  | none =>
    rw [classAddIvar, hrw]
    exact h
  | some rw =>
    have hself := classAddIvar_self hrw name size alignment
    generalize (classAddIvar r c name size alignment).2 = r' at hu hself ⊢
    have hcov : ∀ x, Covered img r' x ↔ Covered img r x := fun x => by
      rw [Covered, Covered, hu.isRealized_eq, hu.ro_eq]
    have hothers : ∀ x, x ≠ c → ivarsOf r' x = ivarsOf r x ∧
        classGetInstanceSize r' x = classGetInstanceSize r x := fun x hx => by
      rw [ivarsOf, ivarsOf, classGetInstanceSize, classGetInstanceSize, hu.others x hx]
      exact ⟨rfl, rfl⟩
    have hnot : ∀ x < r.next, Covered img r x → x ≠ c → c ∉ r.chain x := by
      intro x hx hxcov hne hin
      obtain ⟨e, he, hec⟩ := Ancestry.exists_child_of_mem_chain hl.earlier hin hne.symm
      have helt : e < r.next := (Ancestry.le_of_mem_chain hl.earlier he).trans_lt hx
      exact (hfit (h.covered_of_mem hl hx hxcov hin)).1 e helt (h.covered_of_mem hl hx hxcov he) hec
    have hslots : ∀ x, c ∉ r.chain x → slots r' x = slots r x := fun x hin =>
      slots_congr (hu.chain_eq x) fun e he => slotsOf_congr (congrFun hu.superclass_eq e)
        (hothers e fun hec => hin (hec ▸ he)).1
    have hearlier' : Ancestry.Earlier r'.superclass := hu.superclass_eq ▸ hl.earlier
    -- the class itself
    have hclass : Covered img r c → PlacedIvars 0 (slots r' c) (classGetInstanceSize r' c) ∧
        classGetInstanceSize r' c < 2 ^ 32 := by
      intro hc
      obtain ⟨-, halign, hoffset, hend⟩ := hfit hc
      obtain ⟨hsize, hivars⟩ := hself halign hoffset hend
      obtain ⟨hval, hal⟩ := aligned_roundUp name size hoffset
      have hplaced := h.placed c hlt hc
      have hle := le_roundUp (classGetInstanceSize r c) (Nat.two_pow_pos alignment)
      have hne : (⟨name, toInt32 (roundUp (classGetInstanceSize r c) (2 ^ alignment)), alignment,
          size⟩ : Ivar) ≠ isaWord := by
        intro heq
        have hword := (hplaced.mem (isaWord_mem_slots hl.earlier c)).2.1
        rw [heq] at hval
        simp only [isaWord] at hval hword
        omega
      have hslot : slots r' c = slots r c ++
          [⟨name, toInt32 (roundUp (classGetInstanceSize r c) (2 ^ alignment)), alignment, size⟩] := by
        cases hp : r.superclass c with
        | none =>
          rw [slots_root hl.earlier hp, slots_root hearlier' (by rw [hu.superclass_eq, hp])]
          exact slotsOf_concat (congrFun hu.superclass_eq c) hivars hne
        | some p =>
          have hin : c ∉ r.chain p := fun hin => by
            have hcp := Ancestry.le_of_mem_chain hl.earlier hin
            have hpc := hl.earlier c p hp
            omega
          rw [slots_of_superclass hl.earlier hp, slots_of_superclass hearlier'
            (by rw [hu.superclass_eq, hp]), hivars, ← List.append_assoc, hslots p hin]
      rw [hslot, hsize]
      refine ⟨hplaced.concat ?_ hal ?_, by omega⟩
      · rw [hval]
        exact_mod_cast hle
      · rw [hval]
        exact_mod_cast le_refl _
    constructor
    · intro x hx hc
      rw [hu.next_eq] at hx
      rw [hcov] at hc
      rcases eq_or_ne x c with rfl | hne
      · exact (hclass hc).1
      · rw [hslots x (hnot x hx hc hne), (hothers x hne).2]
        exact h.placed x hx hc
    · intro x hx hc
      rw [hu.next_eq] at hx
      rw [hcov] at hc
      rcases eq_or_ne x c with rfl | hne
      · exact (hclass hc).2
      · rw [(hothers x hne).2]
        exact h.bounded x hx hc
    · intro x hx hc p hp
      rw [hu.next_eq] at hx
      rw [hu.superclass_eq] at hp
      exact (hcov p).mpr (h.superclass x hx ((hcov x).mp hc) p hp)

/-- A new pair behind a class that is covered keeps the slots apart. -/
lemma Spaced.allocates {superclass : Option ℕ} {name : String} {extraBytes : ℕ}
    (hl : Linked img r) (h : Spaced img r) (hsuper : ∀ p ∈ superclass, p < r.next)
    (hfits : PairFits img r superclass extraBytes)
    (ha : Allocates r superclass name extraBytes r') : Spaced img r' := by
  have hearlier' := ha.earlier hl hsuper
  have hcov : ∀ c < r.next, Covered img r' c ↔ Covered img r c := fun c hc => by
    rw [Covered, Covered, ha.isRealized_eq hc, ha.classes_eq hc]
  have hslots : ∀ c < r.next, slots r' c = slots r c := fun c hc =>
    slots_congr (ha.chain_eq hl hsuper hc) fun e he => by
      have hlt : e < r.next := (Ancestry.le_of_mem_chain hl.earlier he).trans_lt hc
      refine slotsOf_congr ?_ ?_
      · rw [Runtime.superclass, Runtime.superclass, ha.classes_eq hlt]
      · rw [ivarsOf, ivarsOf, ha.classes_eq hlt]
  have hsize : ∀ c < r.next, classGetInstanceSize r' c = classGetInstanceSize r c := fun c hc => by
    rw [classGetInstanceSize, classGetInstanceSize, ha.classes_eq hc]
  have hmeta : ¬Covered img r' (r.next + 1) := by
    rw [Covered, ha.metaCls]
    rintro ⟨-, hno⟩
    exact hno ⟨hl.count_le.trans (Nat.le_succ _), rfl⟩
  have hnew : classGetInstanceSize r' r.next =
      superclass.elim 8 (classGetInstanceSize r) + extraBytes % 2 ^ 32 := by
    rw [classGetInstanceSize, ha.cls, allocatedClass, Option.elim_some, Nat.mod_eq_of_lt hfits.2]
  have hparent : r'.superclass r.next = superclass := by
    rw [Runtime.superclass, ha.cls, allocatedClass]
  have hivars : ivarsOf r' r.next = [] := by
    rw [ivarsOf, ha.cls, allocatedClass]
    rfl
  have hcases : ∀ c < r'.next, Covered img r' c → c < r.next ∨ c = r.next := by
    intro c hc hcovc
    rw [ha.next_eq] at hc
    have hne : c ≠ r.next + 1 := by
      rintro rfl
      exact hmeta hcovc
    omega
  constructor
  · intro c hc hcovc
    rcases hcases c hc hcovc with hlt | rfl
    · rw [hslots c hlt, hsize c hlt]
      exact h.placed c hlt ((hcov c hlt).mp hcovc)
    · rw [hnew]
      cases hp : superclass with
      | none =>
        rw [hp] at hparent
        rw [slots_root hearlier' hparent, slotsOf, hparent, hivars, if_pos (by simp),
          Option.elim_none]
        refine ⟨le_refl 0, ⟨0, rfl⟩, ?_⟩
        rw [Placed]
        simp only [isaWord]
        omega
      | some p =>
        rw [hp] at hparent
        have hplt := hsuper p (by rw [hp]; rfl)
        rw [slots_of_superclass hearlier' hparent, hslots p hplt, hivars, List.append_nil,
          Option.elim_some]
        refine (h.placed p hplt (hfits.1 p (by rw [hp]; rfl))).mono_high ?_
        omega
  · intro c hc hcovc
    rcases hcases c hc hcovc with hlt | rfl
    · rw [hsize c hlt]
      exact h.bounded c hlt ((hcov c hlt).mp hcovc)
    · rw [hnew]
      exact hfits.2
  · intro c hc hcovc p hp
    rcases hcases c hc hcovc with hlt | rfl
    · rw [Runtime.superclass, ha.classes_eq hlt] at hp
      exact (hcov p ((hl.earlier c p hp).trans hlt)).mpr
        (h.superclass c hlt ((hcov c hlt).mp hcovc) p hp)
    · rw [hparent] at hp
      exact (hcov p (hsuper p hp)).mpr (hfits.1 p hp)

/-! ## Runs -/

/-- What the layout reads of a realized class. -/
def layoutPart (r : Runtime) (c : ℕ) : Option (List Ivar × ℕ) :=
  (r.classes c).rw.map fun rw => (rw.extraIvars, rw.instanceSize)

/-- A call that leaves what the layout reads keeps the slots apart. -/
lemma Spaced.updates (h : Spaced img r) (hu : Updates r c r')
    (hpart : layoutPart r' c = layoutPart r c) : Spaced img r' := by
  have hall : ∀ d, layoutPart r' d = layoutPart r d := fun d => by
    rcases eq_or_ne d c with rfl | hne
    · exact hpart
    · rw [layoutPart, layoutPart, hu.others d hne]
  have hivars : ∀ (r : Runtime) d, ivarsOf r d =
      (r.classes d).ro.ivars ++ (layoutPart r d).elim [] Prod.fst := fun r d => by
    rw [ivarsOf, layoutPart]
    cases (r.classes d).rw <;> rfl
  have hsize : ∀ (r : Runtime) d, classGetInstanceSize r d = (layoutPart r d).elim 0 Prod.snd :=
    fun r d => by
      rw [classGetInstanceSize, layoutPart]
      cases (r.classes d).rw <;> rfl
  refine h.same hu (fun d => ?_) fun d => ?_
  · rw [hivars, hivars, hu.ro_eq, hall]
  · rw [hsize, hsize, hall]

/-- Methods are nothing to the layout. -/
lemma layoutPart_addMethods (ml : List RawMethod) :
    layoutPart (addMethods r c ml) c = layoutPart r c := by
  rw [addMethods]
  split
  · rfl
  · next rw hrw => simp [layoutPart, hrw, rwAddMethods_eq]

/-- Nor is a method that is added. -/
lemma layoutPart_addMethod (name : Sel) (imp : Imp) :
    layoutPart (classAddMethod r c name imp).2 c = layoutPart r c := by
  rw [classAddMethod]
  split
  · rfl
  · next rw hrw =>
    split
    · rfl
    · simp [layoutPart, hrw, rwAppendMethod]

/-- Nor is a message. -/
lemma layoutPart_lookup {sel : Sel} {imp : Imp}
    (h : objcClassLookupAndCache r c sel = some (imp, r')) : layoutPart r' c = layoutPart r c := by
  rw [objcClassLookupAndCache] at h
  dsimp only at h
  split at h
  · cases h
    simp [layoutPart]
  · split at h
    · cases h
    · cases h
      simp [layoutPart]

/-- A sound call keeps the slots apart. -/
lemma spaced_step (himg : RootsHaveIsa img) {op : Op}
    (h : Linked img r ∧ Closed img r ∧ Spaced img r) (ho : Sound img r op)
    (hs : step r op = some r') : Linked img r' ∧ Closed img r' ∧ Spaced img r' := by
  obtain ⟨hl, hcl, h⟩ := h
  obtain ⟨hl', hcl'⟩ := linked_step hl hcl hs
  refine ⟨hl', hcl', ?_⟩
  cases op with
  | realize c => exact (step_realize (Spaced.keptByOne himg c) hl hcl ⟨h, ho⟩ hs).1.1
  | attachCategory cat =>
    rw [step, Option.ite_none_right_eq_some] at hs
    obtain rfl := Option.some.inj hs.2
    have h₁ := h.updates (addMethods_updates (c := cat.cls) cat.instanceMethods)
      (layoutPart_addMethods cat.instanceMethods)
    rw [attachCategory]
    cases ((addMethods r cat.cls cat.instanceMethods).classes cat.cls).isa with
    | none => exact h₁
    | some m => exact h₁.updates (addMethods_updates cat.classMethods) (layoutPart_addMethods _)
  | allocateClassPair superclass name extraBytes =>
    rw [step, Option.ite_none_right_eq_some] at hs
    obtain ⟨hsuper, hs⟩ := hs
    obtain rfl := Option.some.inj hs
    rcases objcAllocateClassPair_allocates superclass name extraBytes with heq | ha
    · rw [heq]
      exact h
    · rcases ho with hused | hfits
      · rw [objcAllocateClassPair, if_pos hused]
        exact h
      · exact h.allocates hl hsuper hfits ha
  | registerClassPair c =>
    rw [step, Option.ite_none_right_eq_some] at hs
    have heq := objcRegisterDynamicClass_eq hs.2
    refine h.updates (objcRegisterDynamicClass_updates hs.2 c) ?_
    rw [heq]
    rfl
  | addMethod c name imp =>
    rw [step, Option.ite_none_right_eq_some] at hs
    obtain rfl := Option.some.inj hs.2
    exact h.updates (classAddMethod_updates name imp) (layoutPart_addMethod name imp)
  | addIvar c name size alignment =>
    rw [step, Option.ite_none_right_eq_some] at hs
    obtain rfl := Option.some.inj hs.2
    exact h.addIvar hl hs.1 name size alignment ho
  | send c sel =>
    rw [step, Option.ite_none_right_eq_some] at hs
    obtain ⟨⟨imp, r''⟩, hlookup, rfl⟩ := Option.map_eq_some_iff.mp hs.2
    exact h.updates (lookupAndCache_updates hlookup) (layoutPart_lookup hlookup)

/-- Nothing is laid out before the first image is registered. -/
lemma spaced_start (img : Images) (selRegisterName : String → Sel) :
    Spaced img (start img selRegisterName) := by
  have hnone : ∀ c, ¬Covered img (start img selRegisterName) c := fun c hc => by
    have hreal := hc.1
    simp [Runtime.isRealized, start, img.unrealized c] at hreal
  exact ⟨fun c _ hc => absurd hc (hnone c), fun c _ hc => absurd hc (hnone c),
    fun c _ hc => absurd hc (hnone c)⟩

/-- **Instance variables do not overlap**: in every run in which variables are only added to classes
that nothing is laid out behind, pairs are made behind classes that are realized and have an
instance size, and the sizes fit in 32 bits, the variables of every class and of its superclasses
are apart, the `isa` word included, aligned, and inside the instances.

**Proof sketch.** The variables lie one behind another, up to the instance size. The realization of
a class lays out its variables behind the superclass, which is realized and, from then on, does not
grow any more; a variable of a class that nothing is laid out behind is put behind the others. -/
theorem separate (img : Images) (himg : RootsHaveIsa img) (selRegisterName : String → Sel)
    {ops : List Op} (hrun : Transition.exec step (start img selRegisterName) ops = some r)
    (hops : Transition.Along step (Sound img) (start img selRegisterName) ops) {c : ℕ}
    (hlt : c < r.next) (hc : Covered img r c) : Separate r c := by
  obtain ⟨-, -, h⟩ := Transition.invariant_along
    (P := fun r => Linked img r ∧ Closed img r ∧ Spaced img r)
    (fun _ _ _ h ho hs => spaced_step himg h ho hs)
    ⟨linked_start img selRegisterName, closed_start img selRegisterName,
      spaced_start img selRegisterName⟩ hops hrun
  exact h.isSeparate hlt hc

/-- A class made behind a class of an image, with two variables of its own. -/
theorem separate_allocated :
    ∃ r, Transition.exec step (start rootAndSub fun _ => 16)
        [.realize 2, .allocateClassPair (some 2) "New" 0, .addIvar 4 "flag" 1 0,
          .addIvar 4 "next" 8 3, .registerClassPair 4] = some r ∧ Separate r 4 := by
  have hrun : ((Transition.exec step (start rootAndSub fun _ => 16)
      [.realize 2, .allocateClassPair (some 2) "New" 0, .addIvar 4 "flag" 1 0,
        .addIvar 4 "next" 8 3, .registerClassPair 4]).map fun r =>
          decide (4 < r.next ∧ Covered rootAndSub r 4)) = some true := by
    decide +kernel
  obtain ⟨r, hr, hok⟩ := Option.map_eq_some_iff.mp hrun
  obtain ⟨hlt, hc⟩ := of_decide_eq_true hok
  exact ⟨r, hr, separate rootAndSub (by decide +kernel) (fun _ => 16) hr (by decide +kernel) hlt hc⟩

/-- **A superclass that grows**: a variable that is added to a class behind which a subclass has been
made has the place of a variable of the subclass, although every call succeeds. -/
theorem not_separate_addIvar :
    ∃ r, Transition.exec step (start rootAndSub fun _ => 16)
        [.allocateClassPair none "A" 0, .registerClassPair 4, .allocateClassPair (some 4) "B" 0,
          .addIvar 6 "b" 8 3, .registerClassPair 6, .addIvar 4 "a" 8 3] = some r ∧
      slots r 6 = [⟨"isa", 0, 3, 8⟩, ⟨"a", 8, 3, 8⟩, ⟨"b", 8, 3, 8⟩] ∧ ¬Separate r 6 := by
  have hrun : ((Transition.exec step (start rootAndSub fun _ => 16)
      [.allocateClassPair none "A" 0, .registerClassPair 4, .allocateClassPair (some 4) "B" 0,
        .addIvar 6 "b" 8 3, .registerClassPair 6, .addIvar 4 "a" 8 3]).map fun r =>
          decide (slots r 6 = [⟨"isa", 0, 3, 8⟩, ⟨"a", 8, 3, 8⟩, ⟨"b", 8, 3, 8⟩] ∧
            ¬Separate r 6)) = some true := by
    decide +kernel
  obtain ⟨r, hr, hok⟩ := Option.map_eq_some_iff.mp hrun
  exact ⟨r, hr, of_decide_eq_true hok⟩

end Asteros.Objc.Classes
