import Asteros.CoreFoundation.ObjectGraph
import Asteros.Lib.KeyedList
import Mathlib.Logic.Relation

set_option autoImplicit false

/-!
# Equality of objects

`CFEqual` on a graph of objects in which the keys of a dictionary and the members of a set are
pairwise unequal. A comparison of objects from which every path of references ends has a result. It
looks at dictionaries and sets from one side only; as there are as many entries on the other side,
and no two of them are equal to the same one, nothing is left over there.

## Main definitions

* `Equals` — `CFEqual` returns true.
* `Grounded` — an object from which every path of references ends.
* `AllApart` — no keys or members that are grounded are equal.

## Main results

* `comparison` — the comparison of grounded objects has a result, and is symmetric and transitive.
* `grounded_of_equals` — what is equal to a grounded object is one.
-/

namespace Asteros.CoreFoundation.Graph

variable {h : Objects} {a b c n m depth : ℕ} {equal equal' : ℕ → ℕ → Option Bool}
  {R : ℕ → ℕ → Prop} {body body' body'' : Body}

/-! ## Results of the loops -/

section Loops

variable {x : ℕ} {l xs ys : List ℕ} {es fs : List (ℕ × ℕ)}

/-- The search finds nothing if all comparisons are false. -/
lemma find_none_iff : find equal x l = some none ↔ ∀ y ∈ l, equal y x = some false := by
  induction l with
  | nil => simp [find]
  | cons y l ih =>
    rw [find, List.forall_mem_cons, ← ih]
    cases hy : equal y x with
    | none => simp
    | some e =>
      cases e
      · cases find equal x l with
        | none => simp
        | some i => cases i <;> simp
      · simp

/-- It finds the first element for which the comparison is true. -/
lemma find_some_iff {i : ℕ} : find equal x l = some (some i) ↔
    ∃ y, l[i]? = some y ∧ equal y x = some true ∧ ∀ z ∈ l.take i, equal z x = some false := by
  induction l generalizing i with
  | nil => simp [find]
  | cons y l ih =>
    rw [find]
    cases hy : equal y x with
    | none =>
      cases i with
      | zero => simp [hy]
      | succ i => simp [hy]
    | some e =>
      cases e with
      | true =>
        cases i with
        | zero => simp [hy]
        | succ i => simp [hy]
      | false =>
        cases i with
        | zero =>
          cases find equal x l with
          | none => simp [hy]
          | some j => cases j <;> simp [hy]
        | succ i =>
          simp only [Option.bind_some, Bool.false_eq_true, if_false, List.getElem?_cons_succ,
            List.take_succ_cons, List.forall_mem_cons, hy, true_and, ← ih]
          cases find equal x l with
          | none => simp
          | some j => cases j <;> simp

/-- The search comes to an end if the comparisons do. -/
lemma find_returns (hreturns : ∀ y ∈ l, ∃ r, equal y x = some r) :
    ∃ i, find equal x l = some i := by
  induction l with
  | nil => exact ⟨none, rfl⟩
  | cons y l ih =>
    obtain ⟨r, hr⟩ := hreturns y List.mem_cons_self
    obtain ⟨i, hi⟩ := ih fun z hz => hreturns z (List.mem_cons_of_mem _ hz)
    rw [find, hr, Option.bind_some, hi]
    cases r
    · exact ⟨i.map (· + 1), rfl⟩
    · exact ⟨some 0, rfl⟩

/-- The loop of `arrayEqual` is true if all comparisons are. -/
lemma valuesEqual_iff (hlength : xs.length = ys.length) : valuesEqual equal xs ys = some true ↔
    List.Forall₂ (fun x y => equal x y = some true) xs ys := by
  induction xs generalizing ys with
  | nil =>
    obtain rfl := List.length_eq_zero_iff.mp hlength.symm
    simp [valuesEqual]
  | cons x xs ih =>
    cases ys with
    | nil => cases hlength
    | cons y ys =>
      rw [valuesEqual, List.forall₂_cons, ← ih (Nat.succ.inj hlength)]
      cases equal x y with
      | none => simp
      | some e => cases e <;> simp

/-- It comes to an end if they do. -/
lemma valuesEqual_returns (hreturns : ∀ x ∈ xs, ∀ y ∈ ys, ∃ r, equal x y = some r) :
    ∃ r, valuesEqual equal xs ys = some r := by
  induction xs generalizing ys with
  | nil => exact ⟨true, by rw [valuesEqual]; simp⟩
  | cons x xs ih =>
    cases ys with
    | nil => exact ⟨true, by rw [valuesEqual]; simp⟩
    | cons y ys =>
      obtain ⟨r, hr⟩ := hreturns x List.mem_cons_self y List.mem_cons_self
      obtain ⟨r', hr'⟩ := ih fun x' hx' y' hy' =>
        hreturns x' (List.mem_cons_of_mem _ hx') y' (List.mem_cons_of_mem _ hy')
      rw [valuesEqual, hr, Option.bind_some, hr']
      cases r
      · exact ⟨false, rfl⟩
      · exact ⟨r', rfl⟩

/-- The loop of `dictEqual` is true if the value found for each key is equal. -/
lemma entriesEqual_iff : entriesEqual equal fs es = some true ↔
    ∀ e ∈ es, ∃ v, getValue equal fs e.1 = some (some v) ∧ equal e.2 v = some true := by
  induction es with
  | nil => simp [entriesEqual]
  | cons e es ih =>
    rw [entriesEqual, List.forall_mem_cons, ← ih]
    cases getValue equal fs e.1 with
    | none => simp
    | some found =>
      cases found with
      | none => simp
      | some v =>
        cases hv : equal e.2 v with
        | none => simp [hv]
        | some eq => cases eq <;> simp [hv]

/-- What is found for a key is the value of the first entry that has an equal key. -/
lemma getValue_some_iff {v : ℕ} : getValue equal fs x = some (some v) ↔
    ∃ i e, fs[i]? = some e ∧ e.2 = v ∧ equal e.1 x = some true ∧
      ∀ f ∈ fs.take i, equal f.1 x = some false := by
  constructor
  · intro hv
    obtain ⟨i, hi, hiv⟩ := Option.map_eq_some_iff.mp hv
    cases i with
    | none => cases hiv
    | some i =>
      obtain ⟨y, hy, heq, hfirst⟩ := find_some_iff.1 hi
      obtain ⟨e, he, rfl⟩ := Option.map_eq_some_iff.mp ((List.getElem?_map ..).symm.trans hy)
      have hev : e.2 = v := by simpa [he] using hiv
      refine ⟨i, e, he, hev, heq, fun f hf => hfirst f.1 ?_⟩
      rw [← List.map_take]
      exact List.mem_map_of_mem hf
  · rintro ⟨i, e, he, rfl, heq, hfirst⟩
    have hi : find equal x (fs.map Prod.fst) = some (some i) := by
      refine find_some_iff.2 ⟨e.1, by simp [he], heq, fun z hz => ?_⟩
      rw [← List.map_take] at hz
      obtain ⟨f, hf, rfl⟩ := List.mem_map.mp hz
      exact hfirst f hf
    simp [getValue, hi, he]

/-- The loop comes to an end if the comparisons do. -/
lemma entriesEqual_returns
    (hkeys : ∀ e ∈ es, ∀ f ∈ fs, ∃ r, equal f.1 e.1 = some r)
    (hvalues : ∀ e ∈ es, ∀ f ∈ fs, ∃ r, equal e.2 f.2 = some r) :
    ∃ r, entriesEqual equal fs es = some r := by
  induction es with
  | nil => exact ⟨true, rfl⟩
  | cons e es ih =>
    obtain ⟨r, hr⟩ := ih (fun e' he' => hkeys e' (List.mem_cons_of_mem _ he'))
      fun e' he' => hvalues e' (List.mem_cons_of_mem _ he')
    obtain ⟨i, hi⟩ : ∃ i, find equal e.1 (fs.map Prod.fst) = some i := by
      refine find_returns fun y hy => ?_
      obtain ⟨f, hf, rfl⟩ := List.mem_map.mp hy
      exact hkeys e List.mem_cons_self f hf
    rw [entriesEqual, getValue, hi, Option.map_some, Option.bind_some]
    cases hv : i.bind fun i => (fs.map Prod.snd)[i]? with
    | none => exact ⟨false, rfl⟩
    | some v =>
      obtain ⟨j, -, hj⟩ := Option.bind_eq_some_iff.mp hv
      obtain ⟨f, hf, rfl⟩ := List.mem_map.mp (List.mem_of_getElem? hj)
      obtain ⟨eq, heq⟩ := hvalues e List.mem_cons_self f hf
      dsimp only
      rw [heq, Option.bind_some, hr]
      cases eq
      · exact ⟨false, rfl⟩
      · exact ⟨r, rfl⟩

/-- The loop of `setEqual` is true if each member is found. -/
lemma membersEqual_iff : membersEqual equal ys xs = some true ↔
    ∀ x ∈ xs, ∃ i, find equal x ys = some (some i) := by
  induction xs with
  | nil => simp [membersEqual]
  | cons x xs ih =>
    rw [membersEqual, List.forall_mem_cons, ← ih]
    cases find equal x ys with
    | none => simp
    | some i => cases i <;> simp

/-- It comes to an end if the comparisons do. -/
lemma membersEqual_returns (hreturns : ∀ x ∈ xs, ∀ y ∈ ys, ∃ r, equal y x = some r) :
    ∃ r, membersEqual equal ys xs = some r := by
  induction xs with
  | nil => exact ⟨true, rfl⟩
  | cons x xs ih =>
    obtain ⟨i, hi⟩ := find_returns (hreturns x List.mem_cons_self)
    obtain ⟨r, hr⟩ := ih fun x' hx' => hreturns x' (List.mem_cons_of_mem _ hx')
    rw [membersEqual, hi, Option.bind_some, hr]
    cases i
    · exact ⟨false, rfl⟩
    · exact ⟨r, rfl⟩

end Loops

/-! ## Comparisons that have more results -/

section Extends

variable {x : ℕ} {l xs ys : List ℕ} {es fs : List (ℕ × ℕ)} {r : Bool}

/-- A search has its result also with a comparison that has more. -/
lemma find_mono {i : Option ℕ} (hle : ∀ y ∈ l, ∀ r, equal y x = some r → equal' y x = some r)
    (hi : find equal x l = some i) : find equal' x l = some i := by
  cases i with
  | none => exact find_none_iff.2 fun y hy => hle y hy _ (find_none_iff.1 hi y hy)
  | some i =>
    obtain ⟨y, hy, heq, hfirst⟩ := find_some_iff.1 hi
    refine find_some_iff.2 ⟨y, hy, hle y (List.mem_of_getElem? hy) _ heq, fun z hz => ?_⟩
    exact hle z (List.mem_of_mem_take hz) _ (hfirst z hz)

/-- So does the loop of `arrayEqual`. -/
lemma valuesEqual_mono
    (hle : ∀ x ∈ xs, ∀ y ∈ ys, ∀ r, equal x y = some r → equal' x y = some r)
    (hr : valuesEqual equal xs ys = some r) : valuesEqual equal' xs ys = some r := by
  induction xs generalizing ys with
  | nil => rwa [valuesEqual] at hr ⊢ <;> simp
  | cons x xs ih =>
    cases ys with
    | nil => rwa [valuesEqual] at hr ⊢ <;> simp
    | cons y ys =>
      rw [valuesEqual] at hr ⊢
      obtain ⟨e, he, hrest⟩ := Option.bind_eq_some_iff.mp hr
      rw [hle x List.mem_cons_self y List.mem_cons_self e he, Option.bind_some]
      cases e with
      | false => exact hrest
      | true =>
        exact ih (fun x' hx' y' hy' =>
          hle x' (List.mem_cons_of_mem _ hx') y' (List.mem_cons_of_mem _ hy')) hrest

/-- And that of `dictEqual`. -/
lemma entriesEqual_mono
    (hkeys : ∀ e ∈ es, ∀ f ∈ fs, ∀ r, equal f.1 e.1 = some r → equal' f.1 e.1 = some r)
    (hvalues : ∀ e ∈ es, ∀ f ∈ fs, ∀ r, equal e.2 f.2 = some r → equal' e.2 f.2 = some r)
    (hr : entriesEqual equal fs es = some r) : entriesEqual equal' fs es = some r := by
  induction es with
  | nil => exact hr
  | cons e es ih =>
    rw [entriesEqual] at hr ⊢
    obtain ⟨found, hfound, hrest⟩ := Option.bind_eq_some_iff.mp hr
    obtain ⟨i, hi, rfl⟩ := Option.map_eq_some_iff.mp hfound
    have hi' : find equal' e.1 (fs.map Prod.fst) = some i := by
      refine find_mono (fun y hy => ?_) hi
      obtain ⟨f, hf, rfl⟩ := List.mem_map.mp hy
      exact hkeys e List.mem_cons_self f hf
    rw [getValue, hi', Option.map_some, Option.bind_some]
    cases hv : i.bind fun i => (fs.map Prod.snd)[i]? with
    | none =>
      rw [hv] at hrest
      exact hrest
    | some v =>
      rw [hv] at hrest
      obtain ⟨j, -, hj⟩ := Option.bind_eq_some_iff.mp hv
      obtain ⟨f, hf, rfl⟩ := List.mem_map.mp (List.mem_of_getElem? hj)
      obtain ⟨eq, heq, hlast⟩ := Option.bind_eq_some_iff.mp hrest
      dsimp only
      rw [hvalues e List.mem_cons_self f hf eq heq, Option.bind_some]
      cases eq with
      | false => exact hlast
      | true =>
        exact ih (fun e' he' => hkeys e' (List.mem_cons_of_mem _ he'))
          (fun e' he' => hvalues e' (List.mem_cons_of_mem _ he')) hlast

/-- And that of `setEqual`. -/
lemma membersEqual_mono
    (hle : ∀ x ∈ xs, ∀ y ∈ ys, ∀ r, equal y x = some r → equal' y x = some r)
    (hr : membersEqual equal ys xs = some r) : membersEqual equal' ys xs = some r := by
  induction xs with
  | nil => exact hr
  | cons x xs ih =>
    rw [membersEqual] at hr ⊢
    obtain ⟨i, hi, hrest⟩ := Option.bind_eq_some_iff.mp hr
    rw [find_mono (hle x List.mem_cons_self) hi, Option.bind_some]
    cases i with
    | none => exact hrest
    | some i => exact ih (fun x' hx' => hle x' (List.mem_cons_of_mem _ hx')) hrest

/-- The keys and values of a dictionary are what it refers to. -/
lemma fst_mem_refs {e : ℕ × ℕ} (he : e ∈ es) : e.1 ∈ (Body.dictionary es).refs :=
  List.mem_append_left _ (List.mem_map_of_mem he)

/-- So are its values. -/
lemma snd_mem_refs {e : ℕ × ℕ} (he : e ∈ es) : e.2 ∈ (Body.dictionary es).refs :=
  List.mem_append_right _ (List.mem_map_of_mem he)

/-- A comparison of objects has its result also with a comparison of what they refer to that has
more. -/
lemma Body.equal_mono
    (hle : ∀ x ∈ body.refs, ∀ y ∈ body'.refs, ∀ r, equal x y = some r → equal' x y = some r)
    (hge : ∀ x ∈ body.refs, ∀ y ∈ body'.refs, ∀ r, equal y x = some r → equal' y x = some r)
    (hr : body.equal equal body' = some r) : body.equal equal' body' = some r := by
  cases body with
  | array xs =>
    cases body' with
    | array ys =>
      rw [Body.equal] at hr ⊢
      split_ifs at hr ⊢ with hlength
      · exact hr
      · exact valuesEqual_mono hle hr
    | _ => exact hr
  | dictionary es =>
    cases body' with
    | dictionary fs =>
      rw [Body.equal] at hr ⊢
      split_ifs at hr ⊢ with hlength
      · exact hr
      · exact entriesEqual_mono
          (fun e he f hf => hge e.1 (fst_mem_refs he) f.1 (fst_mem_refs hf))
          (fun e he f hf => hle e.2 (snd_mem_refs he) f.2 (snd_mem_refs hf)) hr
    | _ => exact hr
  | set xs =>
    cases body' with
    | set ys =>
      rw [Body.equal] at hr ⊢
      split_ifs at hr ⊢ with hlength
      · exact hr
      · exact membersEqual_mono hge hr
    | _ => exact hr
  | _ => cases body' <;> exact hr

end Extends

/-! ## What equal objects have in common -/

/-- What two objects have in common that compare equal, with `R` for what they refer to. A key or a
member of the second one is the first argument of the comparison. -/
def Body.Matches (R : ℕ → ℕ → Prop) : Body → Body → Prop
  | .string a, .string b => a = b
  | .data a, .data b => a = b
  | .boolean a, .boolean b => a = b
  | .array xs, .array ys => List.Forall₂ R xs ys
  | .dictionary es, .dictionary fs =>
    es.length = fs.length ∧ ∀ e ∈ es, ∃ f ∈ fs, R f.1 e.1 ∧ R e.2 f.2
  | .set xs, .set ys => xs.length = ys.length ∧ ∀ x ∈ xs, ∃ y ∈ ys, R y x
  | _, _ => False

/-- No two of the keys or members are in relation to the same object. -/
def OneEach (R : ℕ → ℕ → Prop) (xs ys : List ℕ) : Prop :=
  xs.Pairwise fun x x' => ∀ y ∈ ys, R y x → ¬R y x'

section Matches

/-- Two elements of a list are the same if they have a property that no two of it have. -/
lemma eq_of_pairwise {α : Type} {Q : α → Prop} {l : List α} (hl : l.Pairwise fun s t => Q s → ¬Q t)
    {s t : α} (hs : s ∈ l) (ht : t ∈ l) (hQs : Q s) (hQt : Q t) : s = t := by
  induction hl with
  | nil => cases hs
  | cons hhead _ ih =>
    rcases List.mem_cons.mp hs with hs' | hs' <;> rcases List.mem_cons.mp ht with ht' | ht'
    · exact hs'.trans ht'.symm
    · exact absurd hQt (hhead t ht' (hs' ▸ hQs))
    · exact absurd hQs (hhead s hs' (ht' ▸ hQt))
    · exact ih hs' ht'

/-- Objects for which the comparison is true match. -/
lemma Body.matches_of_equal (hR : ∀ x y, equal x y = some true → R x y)
    (htrue : body.equal equal body' = some true) : body.Matches R body' := by
  cases body with
  | array xs =>
    cases body' with
    | array ys =>
      rw [Body.equal] at htrue
      split_ifs at htrue with hlength
      · simp at htrue
      · exact ((valuesEqual_iff (not_not.mp hlength)).mp htrue).imp hR
    | _ => simp [Body.equal] at htrue
  | dictionary es =>
    cases body' with
    | dictionary fs =>
      rw [Body.equal] at htrue
      split_ifs at htrue with hlength
      · simp at htrue
      · refine ⟨not_not.mp hlength, fun e he => ?_⟩
        obtain ⟨v, hv, heq⟩ := entriesEqual_iff.mp htrue e he
        obtain ⟨i, f, hf, rfl, hkey, -⟩ := getValue_some_iff.mp hv
        exact ⟨f, List.mem_of_getElem? hf, hR _ _ hkey, hR _ _ heq⟩
    | _ => simp [Body.equal] at htrue
  | set xs =>
    cases body' with
    | set ys =>
      rw [Body.equal] at htrue
      split_ifs at htrue with hlength
      · simp at htrue
      · refine ⟨not_not.mp hlength, fun x hx => ?_⟩
        obtain ⟨i, hi⟩ := membersEqual_iff.mp htrue x hx
        obtain ⟨y, hy, heq, -⟩ := find_some_iff.1 hi
        exact ⟨y, List.mem_of_getElem? hy, hR _ _ heq⟩
    | _ => simp [Body.equal] at htrue
  | _ => cases body' <;> simp_all [Body.equal, Body.Matches]

/-- **The comparison of two objects** returns if those of what they refer to do, and is true if the
objects match. -/
lemma Body.equal_spec
    (hle : ∀ x ∈ body.refs, ∀ y ∈ body'.refs, ∃ r, equal x y = some r ∧ (r = true ↔ R x y))
    (hge : ∀ x ∈ body.refs, ∀ y ∈ body'.refs, ∃ r, equal y x = some r ∧ (r = true ↔ R y x))
    (hone : body'.guarded.Pairwise fun y y' => ∀ x ∈ body.guarded, R y x → ¬R y' x)
    (hR : ∀ x y, equal x y = some true → R x y) :
    ∃ r, body.equal equal body' = some r ∧ (r = true ↔ body.Matches R body') := by
  have htrue : ∀ {x y}, R x y → (∃ r, equal x y = some r ∧ (r = true ↔ R x y)) →
      equal x y = some true := by
    rintro x y hxy ⟨r, hr, hiff⟩
    rw [hr, hiff.mpr hxy]
  suffices hmain : (∃ r, body.equal equal body' = some r) ∧
      (body.Matches R body' → body.equal equal body' = some true) by
    obtain ⟨⟨r, hr⟩, hmatch⟩ := hmain
    refine ⟨r, hr, ?_, fun hm => ?_⟩
    · rintro rfl
      exact Body.matches_of_equal hR hr
    · exact Option.some_inj.mp (hr.symm.trans (hmatch hm))
  cases body with
  | array xs =>
    cases body' with
    | array ys =>
      rw [Body.equal]
      split_ifs with hlength
      · exact ⟨⟨false, rfl⟩, fun hm => absurd hm.length_eq hlength⟩
      · constructor
        · refine valuesEqual_returns fun x hx y hy => ?_
          obtain ⟨r, hr, -⟩ := hle x hx y hy
          exact ⟨r, hr⟩
        · intro hm
          refine (valuesEqual_iff (not_not.mp hlength)).mpr (List.forall₂_iff_get.mpr ?_)
          obtain ⟨hlen, hget⟩ := List.forall₂_iff_get.mp hm
          exact ⟨hlen, fun i hi hi' =>
            htrue (hget i hi hi') (hle _ (List.get_mem _ _) _ (List.get_mem _ _))⟩
    | _ => exact ⟨⟨false, rfl⟩, False.elim⟩
  | dictionary es =>
    cases body' with
    | dictionary fs =>
      have hkeys := fun e he f hf =>
        hge (Prod.fst e) (fst_mem_refs he) (Prod.fst f) (fst_mem_refs hf)
      have hvalues := fun e he f hf =>
        hle (Prod.snd e) (snd_mem_refs he) (Prod.snd f) (snd_mem_refs hf)
      rw [Body.equal]
      split_ifs with hlength
      · exact ⟨⟨false, rfl⟩, fun hm => absurd hm.1 hlength⟩
      · constructor
        · refine entriesEqual_returns (fun e he f hf => ?_) fun e he f hf => ?_
          · obtain ⟨r, hr, -⟩ := hkeys e he f hf
            exact ⟨r, hr⟩
          · obtain ⟨r, hr, -⟩ := hvalues e he f hf
            exact ⟨r, hr⟩
        · rintro ⟨-, hm⟩
          refine entriesEqual_iff.mpr fun e he => ?_
          obtain ⟨f, hf, hkey, hvalue⟩ := hm e he
          obtain ⟨i, hi⟩ : ∃ i, find equal e.1 (fs.map Prod.fst) = some i := by
            refine find_returns fun y hy => ?_
            obtain ⟨f, hf, rfl⟩ := List.mem_map.mp hy
            obtain ⟨r, hr, -⟩ := hkeys e he f hf
            exact ⟨r, hr⟩
          cases i with
          | none =>
            have hfalse := find_none_iff.mp hi f.1 (List.mem_map_of_mem hf)
            rw [htrue hkey (hkeys e he f hf)] at hfalse
            cases hfalse
          | some i =>
            obtain ⟨y, hy, heq, -⟩ := find_some_iff.1 hi
            obtain ⟨f', hf', rfl⟩ :=
              Option.map_eq_some_iff.mp ((List.getElem?_map ..).symm.trans hy)
            -- the first entry with an equal key is the only one
            have hsame : f' = f := by
              refine eq_of_pairwise (Q := fun f => R f.1 e.1) ?_ (List.mem_of_getElem? hf') hf
                (hR _ _ heq) hkey
              exact (List.pairwise_map.mp hone).imp fun hyy' =>
                hyy' e.1 (List.mem_map_of_mem he)
            refine ⟨f.2, ?_, htrue hvalue (hvalues e he f hf)⟩
            simp [getValue, hi, hf', hsame]
    | _ => exact ⟨⟨false, rfl⟩, False.elim⟩
  | set xs =>
    cases body' with
    | set ys =>
      rw [Body.equal]
      split_ifs with hlength
      · exact ⟨⟨false, rfl⟩, fun hm => absurd hm.1 hlength⟩
      · have hreturns : ∀ x ∈ xs, ∀ y ∈ ys, ∃ r, equal y x = some r := by
          intro x hx y hy
          obtain ⟨r, hr, -⟩ := hge x hx y hy
          exact ⟨r, hr⟩
        refine ⟨membersEqual_returns hreturns, ?_⟩
        rintro ⟨-, hm⟩
        refine membersEqual_iff.mpr fun x hx => ?_
        obtain ⟨y, hy, hxy⟩ := hm x hx
        obtain ⟨i, hi⟩ := find_returns (hreturns x hx)
        cases i with
        | none =>
          have hfalse := find_none_iff.mp hi y hy
          rw [htrue hxy (hge x hx y hy)] at hfalse
          cases hfalse
        | some i => exact ⟨i, hi⟩
    | _ => exact ⟨⟨false, rfl⟩, False.elim⟩
  | _ => cases body' <;> simp [Body.equal, Body.Matches]

/-- **Matching looks at one side**, but has the other side as well, if no two keys or members of the
first object are in relation to the same one. -/
lemma Body.Matches.flip (hm : body.Matches R body') (hone : OneEach R body.guarded body'.guarded) :
    body'.Matches (fun x y => R y x) body := by
  cases body with
  | array xs =>
    cases body' with
    | array ys => exact List.Forall₂.flip hm
    | _ => exact hm.elim
  | dictionary es =>
    cases body' with
    | dictionary fs =>
      refine ⟨hm.1.symm, ?_⟩
      refine KeyedList.covers (R := fun e f => R f.1 e.1 ∧ R e.2 f.2) hm.1 ?_ hm.2
      exact (List.pairwise_map.mp hone).imp fun {e e'} hee' f hf hR hR' =>
        hee' f.1 (List.mem_map_of_mem hf) hR.1 hR'.1
    | _ => exact hm.elim
  | set xs =>
    cases body' with
    | set ys => exact ⟨hm.1.symm, KeyedList.covers (R := fun x y => R y x) hm.1 hone hm.2⟩
    | _ => exact hm.elim
  | _ => cases body' <;> first | exact Eq.symm hm | exact hm.elim

/-- Objects that match do so for a relation that has more. -/
lemma Body.Matches.imp {S : ℕ → ℕ → Prop} (hm : body.Matches R body')
    (hle : ∀ x ∈ body.refs, ∀ y ∈ body'.refs, R x y → S x y)
    (hge : ∀ x ∈ body.refs, ∀ y ∈ body'.refs, R y x → S y x) : body.Matches S body' := by
  cases body with
  | array xs =>
    cases body' with
    | array ys =>
      obtain ⟨hlen, hget⟩ := List.forall₂_iff_get.mp hm
      exact List.forall₂_iff_get.mpr ⟨hlen, fun i hi hi' =>
        hle _ (List.get_mem _ _) _ (List.get_mem _ _) (hget i hi hi')⟩
    | _ => exact hm.elim
  | dictionary es =>
    cases body' with
    | dictionary fs =>
      refine ⟨hm.1, fun e he => ?_⟩
      obtain ⟨f, hf, hkey, hvalue⟩ := hm.2 e he
      exact ⟨f, hf, hge _ (fst_mem_refs he) _ (fst_mem_refs hf) hkey,
        hle _ (snd_mem_refs he) _ (snd_mem_refs hf) hvalue⟩
    | _ => exact hm.elim
  | set xs =>
    cases body' with
    | set ys =>
      refine ⟨hm.1, fun x hx => ?_⟩
      obtain ⟨y, hy, hxy⟩ := hm.2 x hx
      exact ⟨y, hy, hge x hx y hy hxy⟩
    | _ => exact hm.elim
  | _ => cases body' <;> exact hm

/-- Matching is transitive if the relation is. -/
lemma Body.Matches.trans (hm : body.Matches R body') (hm' : body'.Matches R body'')
    (hle : ∀ x ∈ body.refs, ∀ y ∈ body'.refs, ∀ z ∈ body''.refs, R x y → R y z → R x z)
    (hge : ∀ x ∈ body.refs, ∀ y ∈ body'.refs, ∀ z ∈ body''.refs, R z y → R y x → R z x) :
    body.Matches R body'' := by
  cases body with
  | array xs =>
    cases body' with
    | array ys =>
      cases body'' with
      | array zs =>
        obtain ⟨hlen, hget⟩ := List.forall₂_iff_get.mp hm
        obtain ⟨hlen', hget'⟩ := List.forall₂_iff_get.mp hm'
        refine List.forall₂_iff_get.mpr ⟨hlen.trans hlen', fun i hi hi' => ?_⟩
        exact hle _ (List.get_mem _ _) _ (List.get_mem _ _) _ (List.get_mem _ _)
          (hget i hi (hlen ▸ hi)) (hget' i (hlen ▸ hi) hi')
      | _ => exact hm'.elim
    | _ => exact hm.elim
  | dictionary es =>
    cases body' with
    | dictionary fs =>
      cases body'' with
      | dictionary gs =>
        refine ⟨hm.1.trans hm'.1, fun e he => ?_⟩
        obtain ⟨f, hf, hkey, hvalue⟩ := hm.2 e he
        obtain ⟨g, hg, hkey', hvalue'⟩ := hm'.2 f hf
        exact ⟨g, hg,
          hge _ (fst_mem_refs he) _ (fst_mem_refs hf) _ (fst_mem_refs hg) hkey' hkey,
          hle _ (snd_mem_refs he) _ (snd_mem_refs hf) _ (snd_mem_refs hg) hvalue hvalue'⟩
      | _ => exact hm'.elim
    | _ => exact hm.elim
  | set xs =>
    cases body' with
    | set ys =>
      cases body'' with
      | set zs =>
        refine ⟨hm.1.trans hm'.1, fun x hx => ?_⟩
        obtain ⟨y, hy, hxy⟩ := hm.2 x hx
        obtain ⟨z, hz, hyz⟩ := hm'.2 y hy
        exact ⟨z, hz, hge x hx y hy z hz hyz hxy⟩
      | _ => exact hm'.elim
    | _ => exact hm.elim
  | _ =>
    cases body' <;> cases body'' <;>
      first | exact Eq.trans hm hm' | exact hm.elim | exact hm'.elim

/-- What an object that matches refers to is in relation to something the other one refers to. -/
lemma Body.Matches.exists_ref (hm : body.Matches R body') :
    ∀ x ∈ body.refs, ∃ y ∈ body'.refs, R x y ∨ R y x := by
  intro x hx
  cases body with
  | array xs =>
    cases body' with
    | array ys =>
      obtain ⟨i, hi, rfl⟩ := List.mem_iff_getElem.mp hx
      obtain ⟨hlen, hget⟩ := List.forall₂_iff_get.mp hm
      exact ⟨_, List.get_mem ys ⟨i, hlen ▸ hi⟩, Or.inl (hget i hi (hlen ▸ hi))⟩
    | _ => exact hm.elim
  | dictionary es =>
    cases body' with
    | dictionary fs =>
      rcases List.mem_append.mp hx with hx | hx
      · obtain ⟨e, he, rfl⟩ := List.mem_map.mp hx
        obtain ⟨f, hf, hkey, -⟩ := hm.2 e he
        exact ⟨f.1, fst_mem_refs hf, Or.inr hkey⟩
      · obtain ⟨e, he, rfl⟩ := List.mem_map.mp hx
        obtain ⟨f, hf, -, hvalue⟩ := hm.2 e he
        exact ⟨f.2, snd_mem_refs hf, Or.inl hvalue⟩
    | _ => exact hm.elim
  | set xs =>
    cases body' with
    | set ys =>
      obtain ⟨y, hy, hxy⟩ := hm.2 x hx
      exact ⟨y, hy, Or.inr hxy⟩
    | _ => exact hm.elim
  | _ => cases hx

/-- Objects that match have the same hash code. -/
lemma Body.Matches.hash_eq (hm : body.Matches R body') : body.hash = body'.hash := by
  cases body with
  | array xs =>
    cases body' with
    | array ys => exact List.Forall₂.length_eq hm
    | _ => exact hm.elim
  | dictionary es =>
    cases body' with
    | dictionary fs => exact hm.1
    | _ => exact hm.elim
  | set xs =>
    cases body' with
    | set ys => exact hm.1
    | _ => exact hm.elim
  | _ => cases body' <;> simp_all [Body.Matches, Body.hash]

end Matches

/-! ## The comparison -/

/-- `CFEqual` returns true. -/
def Equals (h : Objects) (a b : ℕ) : Prop := ∃ depth, cfEqual depth h a b = some true

/-- A result of the comparison is also the one with more depth. -/
lemma cfEqual_mono {r : Bool} (hr : cfEqual n h a b = some r) (hnm : n ≤ m) :
    cfEqual m h a b = some r := by
  induction n generalizing m a b r with
  | zero => cases hr
  | succ n ih =>
    obtain ⟨m, rfl⟩ : ∃ k, m = k + 1 := ⟨m - 1, by omega⟩
    rw [cfEqual] at hr ⊢
    split_ifs at hr ⊢ with heq
    · exact hr
    · split at hr
      · next body body' ha hb =>
        exact Body.equal_mono (fun x _ y _ r hxy => ih hxy (by omega))
          (fun x _ y _ r hyx => ih hyx (by omega)) hr
      · cases hr

/-- The comparison has one result. -/
lemma equals_of_returns {r : Bool} (hr : cfEqual n h a b = some r) : r = true ↔ Equals h a b := by
  constructor
  · rintro rfl
    exact ⟨n, hr⟩
  · rintro ⟨m, hm⟩
    have hn := cfEqual_mono hr (le_max_left n m)
    exact Option.some_inj.mp (hn.symm.trans (cfEqual_mono hm (le_max_right n m)))

/-- It is not both true and false. -/
lemma not_equals_of_false (hr : cfEqual n h a b = some false) : ¬Equals h a b :=
  fun heq => Bool.noConfusion ((equals_of_returns hr).mpr heq)

/-- What two objects have in common for which the comparison is true: they are the same, or they
match. -/
def Alike (h : Objects) (a b : ℕ) : Prop :=
  a = b ∨ ∃ body body', h[a]? = some body ∧ h[b]? = some body' ∧ body.Matches (Equals h) body'

/-- Objects that are equal are alike. -/
lemma Equals.alike (hab : Equals h a b) : Alike h a b := by
  obtain ⟨depth, hdepth⟩ := hab
  cases depth with
  | zero => cases hdepth
  | succ depth =>
    rw [cfEqual] at hdepth
    split_ifs at hdepth with heq
    · exact Or.inl heq
    · split at hdepth
      · next body body' ha hb =>
        refine Or.inr ⟨body, body', ha, hb, ?_⟩
        exact Body.matches_of_equal (fun _ _ hxy => ⟨depth, hxy⟩) hdepth
      · cases hdepth

/-- Every object is equal to itself. -/
lemma Equals.refl (a : ℕ) : Equals h a a := ⟨1, by rw [cfEqual, if_pos rfl]⟩

/-- Objects that are equal have the same hash code. -/
lemma Equals.cfHash_eq (hab : Equals h a b) : cfHash h a = cfHash h b := by
  obtain rfl | ⟨body, body', ha, hb, hm⟩ := hab.alike
  · rfl
  · rw [cfHash, cfHash, ha, hb, Option.map_some, Option.map_some, hm.hash_eq]

/-! ## Objects that are grounded -/

/-- An object from which every path of references comes to an end. -/
inductive Grounded (h : Objects) : ℕ → Prop where
  | intro (a : ℕ) (body : Body) (hbody : h[a]? = some body)
    (hrefs : ∀ x ∈ body.refs, Grounded h x) : Grounded h a

/-- So it is, and each such path has at most `n` objects. -/
def Within (h : Objects) : ℕ → ℕ → Prop
  | 0, _ => False
  | n + 1, a => ∃ body, h[a]? = some body ∧ ∀ x ∈ body.refs, Within h n x

/-- A longer bound is one, too. -/
lemma Within.mono (hw : Within h n a) (hnm : n ≤ m) : Within h m a := by
  induction n generalizing m a with
  | zero => exact hw.elim
  | succ n ih =>
    obtain ⟨m, rfl⟩ : ∃ k, m = k + 1 := ⟨m - 1, by omega⟩
    obtain ⟨body, hbody, hrefs⟩ := hw
    exact ⟨body, hbody, fun x hx => ih (hrefs x hx) (by omega)⟩

/-- The paths from a grounded object are bounded, as it refers to finitely many. -/
lemma Grounded.within (ha : Grounded h a) : ∃ n, Within h n a := by
  induction ha with
  | intro a body hbody _ ih =>
    obtain ⟨n, hn⟩ : ∃ n, ∀ x ∈ body.refs, Within h n x := by
      generalize body.refs = l at ih
      induction l with
      | nil => exact ⟨0, fun x hx => absurd hx List.not_mem_nil⟩
      | cons y l ihl =>
        obtain ⟨n, hn⟩ := ih y List.mem_cons_self
        obtain ⟨m, hm⟩ := ihl fun x hx => ih x (List.mem_cons_of_mem _ hx)
        refine ⟨max n m, List.forall_mem_cons.mpr ⟨hn.mono (le_max_left n m), fun x hx => ?_⟩⟩
        exact (hm x hx).mono (le_max_right n m)
    exact ⟨n + 1, body, hbody, hn⟩

/-- And what has bounded paths is grounded. -/
lemma Within.grounded (hw : Within h n a) : Grounded h a := by
  induction n generalizing a with
  | zero => exact hw.elim
  | succ n ih =>
    obtain ⟨body, hbody, hrefs⟩ := hw
    exact .intro a body hbody fun x hx => ih (hrefs x hx)

/-- The keys and members are among what an object refers to. -/
lemma Body.refs_of_guarded {x : ℕ} (hx : x ∈ body.guarded) : x ∈ body.refs := by
  cases body with
  | dictionary es => exact List.mem_append_left _ hx
  | set xs => exact hx
  | _ => cases hx

/-- No two objects of a list that are grounded are equal. -/
def Apart (h : Objects) (l : List ℕ) : Prop :=
  l.Pairwise fun x y => Grounded h x → Grounded h y → ¬Equals h x y

/-- No two keys of a dictionary or members of a set that are grounded are equal. -/
def AllApart (h : Objects) : Prop :=
  ∀ (g : ℕ) (body : Body), h[g]? = some body → Apart h body.guarded

/-- The comparison of objects with bounded paths returns, and is symmetric and transitive. -/
structure Comparable (h : Objects) (n : ℕ) : Prop where
  returns : ∀ a b, Within h n a → Within h n b →
    ∃ r, cfEqual n h a b = some r ∧ (r = true ↔ Alike h a b)
  symm : ∀ a b, Within h n a → Within h n b → Equals h a b → Equals h b a
  trans : ∀ a b c, Within h n a → Within h n b → Within h n c → Equals h a b → Equals h b c →
    Equals h a c

/-- No two keys or members are equal to the same object. -/
lemma Comparable.oneEach (hc : Comparable h n) {xs ys : List ℕ} (hapart : Apart h xs)
    (hxs : ∀ x ∈ xs, Within h n x) (hys : ∀ y ∈ ys, Within h n y) : OneEach (Equals h) xs ys := by
  refine List.Pairwise.imp_of_mem (fun {x x'} hx hx' hne y hy hyx hyx' => ?_) hapart
  have hxy := hc.symm y x (hys y hy) (hxs x hx) hyx
  have hxx' := hc.trans x y x' (hxs x hx) (hys y hy) (hxs x' hx') hxy hyx'
  exact hne (hxs x hx).grounded (hxs x' hx').grounded hxx'

/-- **One level of the comparison.** -/
lemma Comparable.succ (hapart : AllApart h)
    (hc : Comparable h n) : Comparable h (n + 1) := by
  have hreturns : ∀ a b, Within h (n + 1) a → Within h (n + 1) b →
      ∃ r, cfEqual (n + 1) h a b = some r ∧ (r = true ↔ Alike h a b) := by
    rintro a b ⟨body, ha, hrefs⟩ ⟨body', hb, hrefs'⟩
    by_cases heq : a = b
    · exact ⟨true, by rw [cfEqual, if_pos heq], iff_of_true rfl (Or.inl heq)⟩
    · have hnested : ∀ x y, Within h n x → Within h n y →
          ∃ r, cfEqual n h x y = some r ∧ (r = true ↔ Equals h x y) := by
        intro x y hx hy
        obtain ⟨r, hr, -⟩ := hc.returns x y hx hy
        exact ⟨r, hr, equals_of_returns hr⟩
      have hone : body'.guarded.Pairwise fun y y' => ∀ x ∈ body.guarded,
          Equals h y x → ¬Equals h y' x := by
        have hflip : OneEach (Equals h) body'.guarded body.guarded := hc.oneEach (hapart b body' hb)
          (fun y hy => hrefs' y (Body.refs_of_guarded hy))
          fun x hx => hrefs x (Body.refs_of_guarded hx)
        refine List.Pairwise.imp_of_mem (fun {y y'} hy hy' hne x hx hyx hyx' => ?_) hflip
        have hx' := hrefs x (Body.refs_of_guarded hx)
        have hxy := hc.symm y x (hrefs' y (Body.refs_of_guarded hy)) hx' hyx
        exact hne x hx hxy (hc.symm y' x (hrefs' y' (Body.refs_of_guarded hy')) hx' hyx')
      obtain ⟨r, hr, hiff⟩ : ∃ r, body.equal (cfEqual n h) body' = some r ∧
          (r = true ↔ body.Matches (Equals h) body') := Body.equal_spec
        (fun x hx y hy => hnested x y (hrefs x hx) (hrefs' y hy))
        (fun x hx y hy => hnested y x (hrefs' y hy) (hrefs x hx)) hone fun x y hxy => ⟨n, hxy⟩
      refine ⟨r, by rw [cfEqual, if_neg heq, ha, hb]; exact hr, hiff.trans ?_⟩
      constructor
      · exact fun hm => Or.inr ⟨body, body', ha, hb, hm⟩
      · rintro (hab | ⟨body₁, body₁', ha₁, hb₁, hm⟩)
        · exact absurd hab heq
        · obtain rfl := Option.some_inj.mp (ha.symm.trans ha₁)
          obtain rfl := Option.some_inj.mp (hb.symm.trans hb₁)
          exact hm
  have hequals : ∀ a b, Within h (n + 1) a → Within h (n + 1) b → Alike h a b → Equals h a b := by
    intro a b ha hb halike
    obtain ⟨r, hr, hiff⟩ := hreturns a b ha hb
    exact (equals_of_returns hr).mp (hiff.mpr halike)
  refine ⟨hreturns, fun a b ha hb hab => ?_, fun a b c ha hb hc' hab hbc => ?_⟩
  · obtain rfl | ⟨body, body', hbody, hbody', hm⟩ := hab.alike
    · exact hab
    · obtain ⟨body₁, hbody₁, hrefs⟩ := id ha
      obtain ⟨body₁', hbody₁', hrefs'⟩ := id hb
      obtain rfl := Option.some_inj.mp (hbody.symm.trans hbody₁)
      obtain rfl := Option.some_inj.mp (hbody'.symm.trans hbody₁')
      have hflip := hm.flip (hc.oneEach (hapart a body hbody)
        (fun x hx => hrefs x (Body.refs_of_guarded hx))
        fun y hy => hrefs' y (Body.refs_of_guarded hy))
      refine hequals b a hb ha (Or.inr ⟨body', body, hbody', hbody, hflip.imp ?_ ?_⟩)
      · exact fun y hy x hx hxy => hc.symm x y (hrefs x hx) (hrefs' y hy) hxy
      · exact fun y hy x hx hyx => hc.symm y x (hrefs' y hy) (hrefs x hx) hyx
  · obtain rfl | ⟨body, body', hbody, hbody', hm⟩ := hab.alike
    · exact hbc
    · obtain rfl | ⟨body₂, body'', hbody₂, hbody'', hm'⟩ := hbc.alike
      · exact hab
      · obtain rfl := Option.some_inj.mp (hbody'.symm.trans hbody₂)
        obtain ⟨body₁, hbody₁, hrefs⟩ := id ha
        obtain ⟨body₁', hbody₁', hrefs'⟩ := id hb
        obtain ⟨body₁'', hbody₁'', hrefs''⟩ := id hc'
        obtain rfl := Option.some_inj.mp (hbody.symm.trans hbody₁)
        obtain rfl := Option.some_inj.mp (hbody'.symm.trans hbody₁')
        obtain rfl := Option.some_inj.mp (hbody''.symm.trans hbody₁'')
        refine hequals a c ha hc' (Or.inr ⟨body, body'', hbody, hbody'', hm.trans hm' ?_ ?_⟩)
        · exact fun x hx y hy z hz =>
            hc.trans x y z (hrefs x hx) (hrefs' y hy) (hrefs'' z hz)
        · exact fun x hx y hy z hz =>
            hc.trans z y x (hrefs'' z hz) (hrefs' y hy) (hrefs x hx)

/-- **The comparison of grounded objects** returns, and is symmetric and transitive.

**Proof sketch.** By induction on a bound of the paths, one level of references at a time: that the
comparison is an equivalence below is used to see that nothing is left over in a dictionary or set
that is only looked up in. -/
theorem comparison (hapart : AllApart h) (n : ℕ) :
    Comparable h n := by
  induction n with
  | zero => exact ⟨fun _ _ ha => ha.elim, fun _ _ ha => ha.elim, fun _ _ _ ha => ha.elim⟩
  | succ n ih => exact ih.succ hapart

section Grounded

variable (hapart : AllApart h)

include hapart

/-- The comparison returns. -/
lemma Grounded.returns (ha : Grounded h a) (hb : Grounded h b) :
    ∃ depth r, cfEqual depth h a b = some r := by
  obtain ⟨n, hn⟩ := ha.within
  obtain ⟨m, hm⟩ := hb.within
  obtain ⟨r, hr, -⟩ := (comparison hapart (max n m)).returns a b (hn.mono (le_max_left n m))
    (hm.mono (le_max_right n m))
  exact ⟨max n m, r, hr⟩

/-- It is symmetric. -/
lemma Equals.symm (ha : Grounded h a) (hb : Grounded h b) (hab : Equals h a b) : Equals h b a := by
  obtain ⟨n, hn⟩ := ha.within
  obtain ⟨m, hm⟩ := hb.within
  exact (comparison hapart (max n m)).symm a b (hn.mono (le_max_left n m))
    (hm.mono (le_max_right n m)) hab

/-- It is transitive. -/
lemma Equals.trans (ha : Grounded h a) (hb : Grounded h b) (hc : Grounded h c) (hab : Equals h a b)
    (hbc : Equals h b c) : Equals h a c := by
  obtain ⟨n, hn⟩ := ha.within
  obtain ⟨m, hm⟩ := hb.within
  obtain ⟨k, hk⟩ := hc.within
  exact (comparison hapart (max n (max m k))).trans a b c (hn.mono (by omega))
    (hm.mono (by omega)) (hk.mono (by omega)) hab hbc

/-- **What is equal to a grounded object is grounded.** -/
lemma grounded_of_equals (hb : Grounded h b) (hab : Equals h a b ∨ Equals h b a) :
    Grounded h a := by
  induction hb generalizing a with
  | intro b body' hbody' hrefs ih =>
    have hb : Grounded h b := .intro b body' hbody' hrefs
    rcases hab with hab | hba
    · obtain rfl | ⟨body, body₁, hbody, hbody₁, hm⟩ := hab.alike
      · exact hb
      · obtain rfl := Option.some_inj.mp (hbody'.symm.trans hbody₁)
        refine .intro a body hbody fun x hx => ?_
        obtain ⟨y, hy, hxy⟩ := hm.exists_ref x hx
        exact ih y hy hxy
    · obtain rfl | ⟨body₁, body, hbody₁, hbody, hm⟩ := hba.alike
      · exact hb
      · obtain rfl := Option.some_inj.mp (hbody'.symm.trans hbody₁)
        have hone : OneEach (Equals h) body'.guarded body.guarded := by
          refine List.Pairwise.imp_of_mem (fun {y y'} hy hy' hne x hx hxy hxy' => ?_)
            (hapart b body' hbody')
          have hgy := hrefs y (Body.refs_of_guarded hy)
          have hgy' := hrefs y' (Body.refs_of_guarded hy')
          have hgx := ih y (Body.refs_of_guarded hy) (Or.inl hxy)
          exact hne hgy hgy' ((hxy.symm hapart hgx hgy).trans hapart hgy hgx hgy' hxy')
        refine .intro a body hbody fun x hx => ?_
        obtain ⟨y, hy, hxy⟩ := (hm.flip hone).exists_ref x hx
        exact ih y hy hxy.symm

end Grounded

end Asteros.CoreFoundation.Graph
