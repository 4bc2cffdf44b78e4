import Asteros.Xpc.Graph

set_option autoImplicit false

/-!
# Comparing objects

`xpc_equal`, which compares arrays item by item, and dictionaries by looking up each key of one in
the other. On graphs in which every path comes to an end the comparison returns, and is an
equivalence: that it looks from one dictionary only does not matter, for the other has as many keys
and neither has a key twice.

## Main definitions

* `xpcEqual` — the comparison.
* `Value` — objects of the types that hold values, without cycles.
* `Equals` — the comparison returns `true`.

## Main results

* `equals_iff` — what objects have in common that compare equal.
* `equals_equivalence` — the comparison is an equivalence.
* `xpcEqual_frame` — the comparison looks only at what the objects reach.
-/

namespace Asteros.Xpc.Graph

open Asteros.Libc Refcount

/-! ## The comparison -/

/-- `==` on doubles, by their bits: a NaN is not equal to anything, and the zeros are equal. -/
def doubleEqual (a b : UInt64) : Bool :=
  !(a <<< 1 > 0xFFE0000000000000) && !(b <<< 1 > 0xFFE0000000000000) &&
    (a == b || (a ||| b) <<< 1 == 0)

/-- The loop of `_xpc_array_equal`. -/
def itemsEqual (equal : ℕ → ℕ → Option Bool) : List ℕ → List ℕ → Option Bool
  | x :: xs, y :: ys =>
    (equal x y).bind fun e => if e then itemsEqual equal xs ys else some false
  | _, _ => some true

/-- The loop of `_xpc_dictionary_equal`, over the entries of one dictionary. -/
def entriesEqual (equal : ℕ → ℕ → Option Bool) (head : List (CString × ℕ)) :
    List (CString × ℕ) → Option Bool
  | [] => some true
  | kv :: kvs =>
    match KeyedList.find KeyedList.same head kv.1 with
    | none => some false
    | some bv => (equal kv.2 bv).bind fun e => if e then entriesEqual equal head kvs else some false

/-- The switch of `xpc_equal`, with `equal` for the nested calls. -/
def bodyEqual (equal : ℕ → ℕ → Option Bool) : Body → Body → Option Bool
  | .null, .null => some true
  | .bool a, .bool b => some (a == b)
  | .int64 a, .int64 b => some (a == b)
  | .uint64 a, .uint64 b => some (a == b)
  | .double a, .double b => some (doubleEqual a b)
  | .string a, .string b => some (a == b)
  | .data a, .data b => some (a == b)
  | .array a, .array b =>
    if a.items.length ≠ b.items.length then some false else itemsEqual equal a.items b.items
  | .dictionary a _ _, .dictionary b _ _ =>
    if a.length ≠ b.length then some false else entriesEqual equal b a
  | _, _ => some false

/-- `xpc_equal`, with nested calls up to a depth. There is no result when an object is looked at that
is not there. -/
def xpcEqual : ℕ → Objects → ℕ → ℕ → Option Bool
  | 0, _, _, _ => none
  | depth + 1, h, object1, object2 =>
    if object1 = object2 then some true
    else
      match (h.cell object1).map Cell.body, (h.cell object2).map Cell.body with
      | some body1, some body2 => bodyEqual (xpcEqual depth h) body1 body2
      | _, _ => none

/-- The comparison returns `true`, given enough depth. -/
def Equals (h : Objects) (a b : ℕ) : Prop := ∃ n, ∀ depth, n ≤ depth → xpcEqual depth h a b = some true

/-! ## Values -/

/-- An object that holds a value: not a double, which need not be equal to itself, and not a
connection or an error; a dictionary that was not received. -/
def Body.Plain : Body → Prop
  | .null => True
  | .bool _ => True
  | .int64 _ => True
  | .uint64 _ => True
  | .string _ => True
  | .data _ => True
  | .array arr => arr.WellFormed
  | .dictionary head conn _ => conn = none ∧ KeyedList.Distinct KeyedList.same head
  | _ => False

/-- An object that holds a value, as do all that it refers to, and every path of references from it
comes to an end. -/
inductive Value (h : Objects) : ℕ → Prop where
  | intro (a : ℕ) (c : Cell Body) (hcell : h.cell a = some c) (hplain : c.body.Plain)
    (hrefs : ∀ x ∈ c.body.refs, Value h x) : Value h a

/-- So it is, and each such path has fewer than `n` objects. -/
def Within (h : Objects) : ℕ → ℕ → Prop
  | 0, _ => False
  | n + 1, a => ∃ c, h.cell a = some c ∧ c.body.Plain ∧ ∀ x ∈ c.body.refs, Within h n x

/-- What two objects have in common that compare equal, with `R` for their elements. -/
def Body.Matches (R : ℕ → ℕ → Prop) : Body → Body → Prop
  | .null, .null => True
  | .bool a, .bool b => a = b
  | .int64 a, .int64 b => a = b
  | .uint64 a, .uint64 b => a = b
  | .string a, .string b => a = b
  | .data a, .data b => a = b
  | .array a, .array b => List.Forall₂ R a.items b.items
  | .dictionary a _ _, .dictionary b _ _ => a.length = b.length ∧
      ∀ kv ∈ a, ∃ bv, KeyedList.find KeyedList.same b kv.1 = some bv ∧ R kv.2 bv
  | _, _ => False

section

variable {h h' g : Objects} {a b c n m depth : ℕ} {equal equal' : ℕ → ℕ → Option Bool}
  {R S : ℕ → ℕ → Prop} {body body' body'' : Body}

/-- The value of a key is one of the references of a dictionary. -/
lemma mem_refs_of_find {head : List (CString × ℕ)} {conn : Option ℕ} {msgid : ℕ} {key : CString}
    (hfind : KeyedList.find KeyedList.same head key = some a) :
    a ∈ (Body.dictionary head conn msgid).refs := by
  obtain ⟨k, hmem, -⟩ := KeyedList.mem_of_find hfind
  exact List.mem_append_left _ (List.mem_map.mpr ⟨_, hmem, rfl⟩)

/-- As is that of an entry. -/
lemma mem_refs_of_mem {head : List (CString × ℕ)} {conn : Option ℕ} {msgid : ℕ}
    {kv : CString × ℕ} (hkv : kv ∈ head) : kv.2 ∈ (Body.dictionary head conn msgid).refs :=
  List.mem_append_left _ (List.mem_map.mpr ⟨kv, hkv, rfl⟩)

/-! ## What the comparison looks at -/

/-- The loop over items goes by what the nested calls return. -/
lemma itemsEqual_congr {xs ys : List ℕ} (hcongr : ∀ x ∈ xs, ∀ y ∈ ys, equal x y = equal' x y) :
    itemsEqual equal xs ys = itemsEqual equal' xs ys := by
  induction xs generalizing ys with
  | nil => rfl
  | cons x xs ih =>
    cases ys with
    | nil => rfl
    | cons y ys =>
      have hrest := ih fun x' hx' y' hy' =>
        hcongr x' (List.mem_cons_of_mem _ hx') y' (List.mem_cons_of_mem _ hy')
      rw [itemsEqual, itemsEqual, hcongr x List.mem_cons_self y List.mem_cons_self, hrest]

/-- And so does the one over entries. -/
lemma entriesEqual_congr {head kvs : List (CString × ℕ)}
    (hcongr : ∀ kv ∈ kvs, ∀ k bv, KeyedList.find KeyedList.same head k = some bv →
      equal kv.2 bv = equal' kv.2 bv) :
    entriesEqual equal head kvs = entriesEqual equal' head kvs := by
  induction kvs with
  | nil => rfl
  | cons kv kvs ih =>
    have hrest := ih fun kv' hkv' => hcongr kv' (List.mem_cons_of_mem _ hkv')
    rw [entriesEqual, entriesEqual]
    cases hfind : KeyedList.find KeyedList.same head kv.1 with
    | none => rfl
    | some bv =>
      dsimp only
      rw [hcongr kv List.mem_cons_self kv.1 bv hfind, hrest]

/-- The comparison of two objects goes by the nested calls for what they refer to. -/
lemma bodyEqual_congr (hcongr : ∀ x ∈ body.refs, ∀ y ∈ body'.refs, equal x y = equal' x y) :
    bodyEqual equal body body' = bodyEqual equal' body body' := by
  cases body with
  | array a =>
    cases body' with
    | array b =>
      have hitems : itemsEqual equal a.items b.items = itemsEqual equal' a.items b.items :=
        itemsEqual_congr hcongr
      rw [bodyEqual, bodyEqual, hitems]
    | _ => rfl
  | dictionary a conn msgid =>
    cases body' with
    | dictionary b conn' msgid' =>
      rw [bodyEqual, bodyEqual, entriesEqual_congr fun kv hkv k bv hfind =>
        hcongr _ (mem_refs_of_mem hkv) _ (mem_refs_of_find hfind)]
    | _ => rfl
  | _ => cases body' <;> rfl

/-- An object that is there, and what it reaches. -/
lemma reaches_step {body : Body} {x : ℕ} (hbody : (h.cell a).map Cell.body = some body)
    (hx : x ∈ body.refs) {y : ℕ} (hy : h.Reaches Body.refs x y) : h.Reaches Body.refs a y := by
  obtain ⟨c, hc, rfl⟩ := Option.map_eq_some_iff.mp hbody
  refine Relation.ReflTransGen.head ⟨(c.body, c.immortal), ?_, hx⟩ hy
  rw [Heap.object, hc, Option.map_some]

/-- **The comparison looks only at what the objects reach.** -/
theorem xpcEqual_frame (ha : ∀ x, h.Reaches Body.refs a x → g.object x = h.object x)
    (hb : ∀ x, h.Reaches Body.refs b x → g.object x = h.object x) :
    xpcEqual depth g a b = xpcEqual depth h a b := by
  induction depth generalizing a b with
  | zero => rfl
  | succ depth ih =>
    have hbody : ∀ {x}, g.object x = h.object x →
        (g.cell x).map Cell.body = (h.cell x).map Cell.body := by
      intro x hobj
      simpa [Heap.object, Option.map_map, Function.comp_def] using congrArg (Option.map Prod.fst) hobj
    rw [xpcEqual, xpcEqual, hbody (ha a Relation.ReflTransGen.refl),
      hbody (hb b Relation.ReflTransGen.refl)]
    split_ifs with heq
    · rfl
    · cases hca : (h.cell a).map Cell.body with
      | none => rfl
      | some body =>
        cases hcb : (h.cell b).map Cell.body with
        | none => rfl
        | some body' =>
          refine bodyEqual_congr fun x hx y hy => ih ?_ ?_
          · exact fun z hz => ha z (reaches_step hca hx hz)
          · exact fun z hz => hb z (reaches_step hcb hy hz)

/-! ## What the comparison returns -/

/-- The loop over items returns if the nested calls do. -/
lemma itemsEqual_spec {xs ys : List ℕ} (hlen : xs.length = ys.length)
    (hnested : ∀ x ∈ xs, ∀ y ∈ ys, ∃ r, equal x y = some r ∧ (r = true ↔ R x y)) :
    ∃ r, itemsEqual equal xs ys = some r ∧ (r = true ↔ List.Forall₂ R xs ys) := by
  induction xs generalizing ys with
  | nil =>
    obtain rfl := List.length_eq_zero_iff.mp hlen.symm
    exact ⟨true, rfl, by simp⟩
  | cons x xs ih =>
    cases ys with
    | nil => cases hlen
    | cons y ys =>
      obtain ⟨r, hr, hiff⟩ := hnested x List.mem_cons_self y List.mem_cons_self
      rw [itemsEqual, hr, Option.bind_some, List.forall₂_cons, ← hiff]
      cases r with
      | false => exact ⟨false, rfl, by simp⟩
      | true =>
        obtain ⟨r, hrest, hrestiff⟩ := ih (Nat.succ.inj hlen) fun x' hx' y' hy' =>
          hnested x' (List.mem_cons_of_mem _ hx') y' (List.mem_cons_of_mem _ hy')
        exact ⟨r, hrest, by rw [hrestiff, and_iff_right rfl]⟩

/-- And so does the one over entries. -/
lemma entriesEqual_spec {head kvs : List (CString × ℕ)}
    (hnested : ∀ kv ∈ kvs, ∀ k bv, KeyedList.find KeyedList.same head k = some bv →
      ∃ r, equal kv.2 bv = some r ∧ (r = true ↔ R kv.2 bv)) :
    ∃ r, entriesEqual equal head kvs = some r ∧ (r = true ↔ ∀ kv ∈ kvs, ∃ bv,
      KeyedList.find KeyedList.same head kv.1 = some bv ∧ R kv.2 bv) := by
  induction kvs with
  | nil => exact ⟨true, rfl, by simp⟩
  | cons kv kvs ih =>
    rw [entriesEqual]
    cases hfind : KeyedList.find KeyedList.same head kv.1 with
    | none => exact ⟨false, rfl, by simp [hfind]⟩
    | some bv =>
      obtain ⟨r, hr, hiff⟩ := hnested kv List.mem_cons_self kv.1 bv hfind
      dsimp only
      rw [hr, Option.bind_some]
      simp only [List.forall_mem_cons, hfind, Option.some.injEq, exists_eq_left', ← hiff]
      cases r with
      | false => exact ⟨false, rfl, by simp⟩
      | true =>
        obtain ⟨r, hrest, hrestiff⟩ := ih fun kv' hkv' => hnested kv' (List.mem_cons_of_mem _ hkv')
        exact ⟨r, hrest, by rw [hrestiff, and_iff_right rfl]⟩

/-- The comparison of a value with another object returns if the nested calls do. -/
lemma bodyEqual_spec (hplain : body.Plain)
    (hnested : ∀ x ∈ body.refs, ∀ y ∈ body'.refs, ∃ r, equal x y = some r ∧ (r = true ↔ R x y)) :
    ∃ r, bodyEqual equal body body' = some r ∧ (r = true ↔ body.Matches R body') := by
  cases body with
  | array a =>
    cases body' with
    | array b =>
      rw [bodyEqual]
      split_ifs with hlen
      · refine ⟨false, rfl, ?_⟩
        simp only [Bool.false_eq_true, false_iff]
        exact fun hmatch => hlen (List.Forall₂.length_eq hmatch)
      · exact itemsEqual_spec (not_not.mp hlen) hnested
    | _ => exact ⟨false, rfl, by simp [Body.Matches]⟩
  | dictionary a conn msgid =>
    cases body' with
    | dictionary b conn' msgid' =>
      rw [bodyEqual]
      split_ifs with hlen
      · exact ⟨false, rfl, by simp [Body.Matches, hlen]⟩
      · obtain ⟨r, hr, hiff⟩ := entriesEqual_spec fun kv hkv k bv hfind =>
          hnested _ (mem_refs_of_mem hkv) _ (mem_refs_of_find hfind)
        exact ⟨r, hr, by rw [hiff, Body.Matches, and_iff_right (not_not.mp hlen)]⟩
    | _ => exact ⟨false, rfl, by simp [Body.Matches]⟩
  | double d => exact hplain.elim
  | connection peers => exact hplain.elim
  | error s => exact hplain.elim
  | _ => cases body' <;> simp [bodyEqual, Body.Matches]

/-- A longer bound is one, too. -/
lemma Within.mono (hw : Within h n a) (hnm : n ≤ m) : Within h m a := by
  induction n generalizing m a with
  | zero => exact hw.elim
  | succ n ih =>
    obtain ⟨m, rfl⟩ : ∃ k, m = k + 1 := ⟨m - 1, by omega⟩
    obtain ⟨c, hc, hplain, hrefs⟩ := hw
    exact ⟨c, hc, hplain, fun x hx => ih (hrefs x hx) (by omega)⟩

/-- The paths from a value are bounded, as an object refers to finitely many. -/
lemma Value.within (hv : Value h a) : ∃ n, Within h n a := by
  induction hv with
  | intro a c hc hplain _ ih =>
    obtain ⟨n, hn⟩ : ∃ n, ∀ x ∈ c.body.refs, Within h n x := by
      generalize c.body.refs = l at ih
      induction l with
      | nil => exact ⟨0, fun x hx => absurd hx List.not_mem_nil⟩
      | cons y l ihl =>
        obtain ⟨n, hn⟩ := ih y List.mem_cons_self
        obtain ⟨m, hm⟩ := ihl fun x hx => ih x (List.mem_cons_of_mem _ hx)
        refine ⟨max n m, List.forall_mem_cons.mpr ⟨hn.mono (le_max_left n m), fun x hx => ?_⟩⟩
        exact (hm x hx).mono (le_max_right n m)
    exact ⟨n + 1, c, hc, hplain, hn⟩

/-- A comparison that returns for every depth from some on has one result. -/
lemma equals_of_returns {r : Bool} (hr : ∀ depth, n ≤ depth → xpcEqual depth h a b = some r) :
    r = true ↔ Equals h a b := by
  constructor
  · rintro rfl
    exact ⟨n, hr⟩
  · rintro ⟨m, hm⟩
    have hboth := (hr (max n m) (le_max_left n m)).symm.trans (hm (max n m) (le_max_right n m))
    exact Option.some_inj.mp hboth

/-- What two objects have in common that the comparison is `true` for: they are the same, or they
have the same value up to the comparison of what they refer to. -/
def Alike (h : Objects) (a b : ℕ) : Prop :=
  a = b ∨ ∃ c c', h.cell a = some c ∧ h.cell b = some c' ∧ c.body.Matches (Equals h) c'.body

/-- **The comparison returns.**

**Proof sketch.** By induction on the length of the paths from the first object. -/
theorem xpcEqual_returns (ha : Within h n a) (hb : Value h b) :
    ∃ r, (∀ depth, n ≤ depth → xpcEqual depth h a b = some r) ∧ (r = true ↔ Alike h a b) := by
  induction n generalizing a b with
  | zero => exact ha.elim
  | succ n ih =>
    obtain ⟨c, hc, hplain, hrefs⟩ := ha
    obtain ⟨_, c', hc', hplain', hrefs'⟩ := hb
    by_cases heq : a = b
    · refine ⟨true, fun depth hdepth => ?_, iff_of_true rfl (.inl heq)⟩
      obtain ⟨k, rfl⟩ : ∃ k, depth = k + 1 := ⟨depth - 1, by omega⟩
      rw [xpcEqual, if_pos heq]
    · have hnested : ∀ depth, n ≤ depth → ∀ x ∈ c.body.refs, ∀ y ∈ c'.body.refs,
          ∃ r, xpcEqual depth h x y = some r ∧ (r = true ↔ Equals h x y) := by
        intro depth hdepth x hx y hy
        obtain ⟨r, hr, -⟩ := ih (hrefs x hx) (hrefs' y hy)
        exact ⟨r, hr depth hdepth, equals_of_returns hr⟩
      have hcall : ∀ depth, xpcEqual (depth + 1) h a b =
          bodyEqual (xpcEqual depth h) c.body c'.body := by
        intro depth
        rw [xpcEqual, if_neg heq, hc, hc', Option.map_some, Option.map_some]
      obtain ⟨r, hr, hiff⟩ := bodyEqual_spec hplain (hnested n (le_refl n))
      refine ⟨r, fun depth hdepth => ?_, hiff.trans ?_⟩
      · obtain ⟨k, rfl⟩ : ∃ k, depth = k + 1 := ⟨depth - 1, by omega⟩
        rw [hcall, ← hr]
        refine bodyEqual_congr fun x hx y hy => ?_
        obtain ⟨r, hr, -⟩ := ih (hrefs x hx) (hrefs' y hy)
        rw [hr k (by omega), hr n (le_refl n)]
      · constructor
        · exact fun hmatch => .inr ⟨c, c', hc, hc', hmatch⟩
        · rintro (hab | ⟨e, e', he, he', hmatch⟩)
          · exact absurd hab heq
          · obtain rfl := Option.some_inj.mp (hc.symm.trans he)
            obtain rfl := Option.some_inj.mp (hc'.symm.trans he')
            exact hmatch

/-- **What equal values have in common.** -/
theorem equals_iff (ha : Value h a) (hb : Value h b) : Equals h a b ↔ Alike h a b := by
  obtain ⟨n, hn⟩ := ha.within
  obtain ⟨r, hr, hiff⟩ := xpcEqual_returns hn hb
  rw [← equals_of_returns hr, hiff]

/-! ## An equivalence -/

/-- The elements of a value are values. -/
lemma Value.refs (ha : Value h a) {e : Cell Body} (he : h.cell a = some e) :
    ∀ x ∈ e.body.refs, Value h x := by
  obtain ⟨_, c, hc, -, hrefs⟩ := ha
  obtain rfl := Option.some_inj.mp (hc.symm.trans he)
  exact hrefs

/-- A value is of one of the types. -/
lemma Value.plain (ha : Value h a) {e : Cell Body} (he : h.cell a = some e) : e.body.Plain := by
  obtain ⟨_, c, hc, hplain, -⟩ := ha
  obtain rfl := Option.some_inj.mp (hc.symm.trans he)
  exact hplain

/-- Bodies that match are equal and refer to nothing, or they are arrays of elements that match, or
dictionaries. -/
lemma Body.Matches.cases (hm : body.Matches R body') :
    (body = body' ∧ body.refs = []) ∨
    (∃ a b, body = .array a ∧ body' = .array b ∧ List.Forall₂ R a.items b.items) ∨
    ∃ a conn msgid b conn' msgid', body = .dictionary a conn msgid ∧
      body' = .dictionary b conn' msgid' ∧ a.length = b.length ∧
      ∀ kv ∈ a, ∃ bv, KeyedList.find KeyedList.same b kv.1 = some bv ∧ R kv.2 bv := by
  unfold Body.Matches at hm
  split at hm
  · exact .inl ⟨rfl, rfl⟩
  · exact .inl ⟨congrArg _ hm, rfl⟩
  · exact .inl ⟨congrArg _ hm, rfl⟩
  · exact .inl ⟨congrArg _ hm, rfl⟩
  · exact .inl ⟨congrArg _ hm, rfl⟩
  · exact .inl ⟨congrArg _ hm, rfl⟩
  · exact .inr (.inl ⟨_, _, rfl, rfl, hm⟩)
  · exact .inr (.inr ⟨_, _, _, _, _, _, rfl, rfl, hm⟩)
  · exact hm.elim

/-- Lists that match item by item match a third one that one of them does. -/
lemma forall₂_trans {xs ys zs : List ℕ} (hxy : List.Forall₂ R xs ys) (hyz : List.Forall₂ R ys zs)
    (hR : ∀ x ∈ xs, ∀ y ∈ ys, ∀ z ∈ zs, R x y → R y z → R x z) : List.Forall₂ R xs zs := by
  induction hxy generalizing zs with
  | nil => exact hyz
  | cons hab _ ih =>
    cases hyz with
    | cons hbc hrest =>
      have hhead := hR _ List.mem_cons_self _ List.mem_cons_self _ List.mem_cons_self hab hbc
      refine .cons hhead (ih hrest fun x hx y hy z hz => ?_)
      exact hR x (List.mem_cons_of_mem _ hx) y (List.mem_cons_of_mem _ hy) z
        (List.mem_cons_of_mem _ hz)

/-- And match the other way around. -/
lemma forall₂_symm {xs ys : List ℕ} (hxy : List.Forall₂ R xs ys)
    (hR : ∀ x ∈ xs, ∀ y ∈ ys, R x y → R y x) : List.Forall₂ R ys xs := by
  induction hxy with
  | nil => exact .nil
  | cons hab _ ih =>
    refine .cons (hR _ List.mem_cons_self _ List.mem_cons_self hab) (ih fun x hx y hy => ?_)
    exact hR x (List.mem_cons_of_mem _ hx) y (List.mem_cons_of_mem _ hy)

/-- Matching is transitive if the relation of the elements is. -/
lemma Body.Matches.trans (h₁ : body.Matches R body') (h₂ : body'.Matches R body'')
    (hR : ∀ x ∈ body.refs, ∀ y ∈ body'.refs, ∀ z ∈ body''.refs, R x y → R y z → R x z) :
    body.Matches R body'' := by
  obtain ⟨rfl, -⟩ | ⟨a, b, rfl, rfl, hab⟩ | ⟨a, conn, msgid, b, conn', msgid', rfl, rfl, hlen, hab⟩ :=
    h₁.cases
  · exact h₂
  · cases body'' with
    | array c => exact forall₂_trans hab h₂ hR
    | _ => exact h₂.elim
  · cases body'' with
    | dictionary c conn'' msgid'' =>
      refine ⟨hlen.trans h₂.1, fun kv hkv => ?_⟩
      obtain ⟨bv, hbv, hRb⟩ := hab kv hkv
      obtain ⟨k, hmem, hk⟩ := KeyedList.mem_of_find hbv
      obtain ⟨cv, hcv, hRc⟩ := h₂.2 _ hmem
      rw [KeyedList.find_congr KeyedList.lawful_same hk] at hcv
      exact ⟨cv, hcv, hR _ (mem_refs_of_mem hkv) _ (mem_refs_of_find hbv) _ (mem_refs_of_find hcv)
        hRb hRc⟩
    | _ => exact h₂.elim

/-- **Matching is symmetric** if the relation of the elements is, although a dictionary is compared
from one side.

**Proof sketch.** Its keys are as many as those of the other and are all among them. As neither has a
key twice, each key of the other is one of them. -/
lemma Body.Matches.symm (hm : body.Matches R body') (hplain : body.Plain) (hplain' : body'.Plain)
    (hR : ∀ x ∈ body.refs, ∀ y ∈ body'.refs, R x y → R y x) : body'.Matches R body := by
  obtain ⟨rfl, hrefs⟩ | ⟨a, b, rfl, rfl, hab⟩ | ⟨a, conn, msgid, b, conn', msgid', rfl, rfl, hlen,
    hab⟩ := hm.cases
  · exact hm
  · exact forall₂_symm hab hR
  · obtain ⟨-, hdistinct⟩ := hplain
    obtain ⟨-, hdistinct'⟩ := hplain'
    have hcovered : ∀ kv ∈ b, ∃ kv' ∈ a, kv'.1 = kv.1 := by
      refine KeyedList.covers hlen (hdistinct.imp fun {kv kv'} hne bkv _ heq heq' => ?_)
        fun kv hkv => ?_
      · rw [heq, heq', KeyedList.lawful_same.refl] at hne
        cases hne
      · obtain ⟨bv, hbv, -⟩ := hab kv hkv
        obtain ⟨k, hmem, hk⟩ := KeyedList.mem_of_find hbv
        exact ⟨(k, bv), hmem, (of_decide_eq_true hk).symm⟩
    refine ⟨hlen.symm, fun kv hkv => ?_⟩
    obtain ⟨kv', hkv', hkey⟩ := hcovered kv hkv
    have hfind : KeyedList.find KeyedList.same a kv.1 = some kv'.2 :=
      (KeyedList.find_eq_some_iff KeyedList.lawful_same hdistinct).mpr
        ⟨kv'.1, hkv', hkey ▸ KeyedList.lawful_same.refl _⟩
    have hfind' : KeyedList.find KeyedList.same b kv'.1 = some kv.2 :=
      (KeyedList.find_eq_some_iff KeyedList.lawful_same hdistinct').mpr
        ⟨kv.1, hkv, hkey ▸ KeyedList.lawful_same.refl _⟩
    obtain ⟨bv, hbv, hRb⟩ := hab kv' hkv'
    obtain rfl := Option.some_inj.mp (hfind'.symm.trans hbv)
    exact ⟨kv'.2, hfind, hR _ (mem_refs_of_mem hkv') _ (mem_refs_of_mem hkv) hRb⟩

/-- Every object compares equal to itself. -/
lemma Equals.refl (a : ℕ) : Equals h a a := by
  refine ⟨1, fun depth hdepth => ?_⟩
  obtain ⟨k, rfl⟩ : ∃ k, depth = k + 1 := ⟨depth - 1, by omega⟩
  rw [xpcEqual, if_pos rfl]

/-- The comparison of values is symmetric. -/
lemma Equals.symm (ha : Value h a) (hb : Value h b) (hab : Equals h a b) : Equals h b a := by
  induction ha generalizing b with
  | intro a c hc hplain hrefs ih =>
    obtain rfl | ⟨e, c', he, hc', hm⟩ := (equals_iff (.intro a c hc hplain hrefs) hb).mp hab
    · exact hab
    · obtain rfl := Option.some_inj.mp (hc.symm.trans he)
      refine (equals_iff hb (.intro a c hc hplain hrefs)).mpr (.inr ⟨c', c, hc', hc, ?_⟩)
      exact hm.symm hplain (hb.plain hc') fun x hx y hy => ih x hx (hb.refs hc' y hy)

/-- And transitive. -/
lemma Equals.trans (ha : Value h a) (hb : Value h b) (hc : Value h c) (hab : Equals h a b)
    (hbc : Equals h b c) : Equals h a c := by
  induction ha generalizing b c with
  | intro a e he hplain hrefs ih =>
    have ha : Value h a := .intro a e he hplain hrefs
    obtain rfl | ⟨e₁, e', he₁, he', hm⟩ := (equals_iff ha hb).mp hab
    · exact hbc
    · obtain rfl := Option.some_inj.mp (he.symm.trans he₁)
      obtain rfl | ⟨e₂, e'', he₂, he'', hm'⟩ := (equals_iff hb hc).mp hbc
      · exact hab
      · obtain rfl := Option.some_inj.mp (he'.symm.trans he₂)
        refine (equals_iff ha hc).mpr (.inr ⟨e, e'', he, he'', hm.trans hm' ?_⟩)
        exact fun x hx y hy z hz => ih x hx (hb.refs he' y hy) (hc.refs he'' z hz)

/-- **The comparison of values is an equivalence.** -/
theorem equals_equivalence (h : Objects) :
    Equivalence fun a b : { a // Value h a } => Equals h a b where
  refl a := Equals.refl a.1
  symm {a b} := Equals.symm a.2 b.2
  trans {a b c} := Equals.trans a.2 b.2 c.2

end

end Asteros.Xpc.Graph
