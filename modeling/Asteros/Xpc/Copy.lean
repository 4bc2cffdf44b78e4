import Asteros.Xpc.Equal

set_option autoImplicit false

/-!
# Copying objects

`xpc_copy`, which makes new objects for everything that holds a value. A copied dictionary lists its
keys the other way around. Nothing stops the copying, or the comparison, on a graph with a cycle.

## Main definitions

* `xpcCopy` — the copying.
* `Copied` — what it leaves behind.
* `LaterStep` — what may be done with the copy.

## Main results

* `xpcCopy_spec` — a copy is made of every value.
* `later_unchanged` — and whatever is done with it leaves the rest alone.
* `equal_and_copy_agree` — comparing and copying agree.
-/

namespace Asteros.Xpc.Graph

open Asteros.Libc Refcount

/-! ## The copying -/

/-- The loop of `_xpc_array_copy` and `_xpc_dictionary_copy`: each element is copied, the copy is
stored in its slot and released. The slot of an array is `XPC_ARRAY_APPEND`. -/
def copyElements (copyOf : Objects → ℕ → Option (Objects × ℕ)) (depth copy : ℕ) :
    List (Slot × ℕ) → Objects → Option Objects
  | [], h => some h
  | (slot, x) :: rest, h =>
    (copyOf h x).bind fun (h, v) => (setValue depth h copy slot v).bind fun h =>
      (xpcRelease depth h v).bind fun h => copyElements copyOf depth copy rest h

/-- `xpc_copy`, with nested calls up to a depth. Strings and data have a buffer each. -/
def xpcCopy : ℕ → Objects → ℕ → Option (Objects × ℕ)
  | 0, _, _ => none
  | depth + 1, h, object =>
    match (h.cell object).map Cell.body with
    | none => none
    | some (.array arr) =>
      let (h, copy) := xpcObjectAlloc h (.array ⟨[], 0, 0⟩)
      (copyElements (xpcCopy depth) depth copy
        (arr.items.map fun x => (.index xpcArrayAppend, x)) h).map fun h => (h, copy)
    | some (.dictionary head _ _) =>
      let (h, copy) := xpcObjectAlloc h (.dictionary [] none 0)
      (copyElements (xpcCopy depth) depth copy
        (head.map fun kv => (.key kv.1, kv.2)) h).map fun h => (h, copy)
    | some (.connection _) => (xpcRetain h object).map fun h => (h, object)
    | some (.error _) => (xpcRetain h object).map fun h => (h, object)
    | some body => some (xpcObjectAlloc h body)

/-- What copying an object leaves behind. -/
structure Copied (n : ℕ) (h h' : Objects) (owed : ℕ → ℕ) (object copy : ℕ) : Prop where
  /-- The counts are right, with a reference to the copy for the caller. -/
  balanced : Balanced Body.refs h' (oneMore owed copy) []
  /-- The copy is a new object. -/
  fresh : copy ∉ h.dom
  /-- It is alive. -/
  alive : h'.Alive copy
  /-- It is counted. -/
  mortal : ¬h'.Immortal copy
  /-- Addresses are not forgotten. -/
  dom : h.dom ⊆ h'.dom
  /-- Whatever was alive still is. -/
  kept : ∀ x, h.Alive x → h'.Alive x
  /-- The objects that there were have not changed. -/
  same : ∀ x ∈ h.dom, h'.object x = h.object x
  /-- The new ones are sound. -/
  sound : ∀ x c', x ∉ h.dom → h'.cell x = some c' → c'.body.Sound
  /-- The copy is a value. -/
  within : Within h' n copy
  /-- All that it refers to is new. -/
  apart : ∀ x, h'.Reaches Body.refs copy x → x ∉ h.dom
  /-- The copy compares equal to the object. -/
  equal : ∀ depth, n ≤ depth → xpcEqual depth h' copy object = some true

/-- In the heap `g`, in which the objects of `h₀` have been left alone and `c` is being filled, `v` is
a copy of `x`. -/
structure CopyAt (h₀ : Objects) (c n : ℕ) (g : Objects) (v x : ℕ) : Prop where
  /-- What is copied is a value. -/
  original : Within h₀ n x
  /-- It is a value. -/
  within : Within g n v
  /-- All that it refers to is new, and not the one that is being filled. -/
  apart : ∀ y, g.Reaches Body.refs v y → y ∉ h₀.dom ∧ y ≠ c
  /-- It compares equal to what it is a copy of. -/
  equal : ∀ depth, n ≤ depth → xpcEqual depth g v x = some true

/-- The container `c` is being filled in the heap `g`, and consists of `body` so far. -/
structure Filling (h₀ : Objects) (owed : ℕ → ℕ) (c : ℕ) (g : Objects) (body : Body) : Prop where
  /-- The counts are right. -/
  balanced : Balanced Body.refs g (oneMore owed c) []
  /-- The container. -/
  object : g.object c = some (body, false)
  /-- It is alive. -/
  alive : g.Alive c
  /-- It is new. -/
  fresh : c ∉ h₀.dom
  /-- Addresses are not forgotten. -/
  dom : h₀.dom ⊆ g.dom
  /-- Whatever was alive still is. -/
  kept : ∀ x, h₀.Alive x → g.Alive x
  /-- The objects that there were have not changed. -/
  same : ∀ x ∈ h₀.dom, g.object x = h₀.object x
  /-- The new ones are sound. -/
  sound : ∀ x c', x ∉ h₀.dom → g.cell x = some c' → c'.body.Sound

/-- What may be done after a copy was made, with `held` for the references that were taken since, and
`old` for the addresses that were in use before: a value is stored in a container that is not an old
one, with a call that returns; an object is made; a reference that was taken is released. -/
inductive LaterStep (old : Finset ℕ) : Objects × (ℕ → ℕ) → Objects × (ℕ → ℕ) → Prop where
  | set (depth : ℕ) (h h' : Objects) (held : ℕ → ℕ) (d : ℕ) (slot : Slot) (v : ℕ) (hnew : d ∉ old)
    (halive : h.Alive d) (hv : h.Alive v) (hindex : ∀ index, slot = .index index → index < 2 ^ 64)
    (hcall : setValue depth h d slot v = some h') : LaterStep old (h, held) (h', held)
  | create (h : Objects) (held : ℕ → ℕ) (body : Body) (hrefs : body.refs = [])
    (hsound : body.Sound) : LaterStep old (h, held)
      ((xpcObjectAlloc h body).1, oneMore held (xpcObjectAlloc h body).2)
  | drop (depth : ℕ) (h h' : Objects) (held : ℕ → ℕ) (a : ℕ)
    (hcall : xpcRelease depth h a = some h') : LaterStep old (h, oneMore held a) (h', held)

/-- What the objects that there were before the copy are afterwards. -/
structure Unchanged (h₀ : Objects) (owed : ℕ → ℕ) (s : Objects × (ℕ → ℕ)) : Prop where
  /-- The counts are right. -/
  balanced : Balanced Body.refs s.1 (fun x => owed x + s.2 x) []
  /-- Whatever was alive still is, and has not changed. -/
  kept : ∀ x, h₀.Alive x → s.1.Alive x ∧ s.1.object x = h₀.object x
  /-- Addresses are not forgotten. -/
  dom : h₀.dom ⊆ s.1.dom
  /-- The new objects are sound. -/
  sound : ∀ x c, x ∉ h₀.dom → s.1.cell x = some c → c.body.Sound

/-- A value has been stored in a new slot. -/
inductive Pushes (v : ℕ) : Slot → Body → Body → Prop where
  | key (key : CString) (head : List (CString × ℕ)) (conn : Option ℕ) (msgid : ℕ) :
    Pushes v (.key key) (.dictionary head conn msgid) (.dictionary ((key, v) :: head) conn msgid)
  | append (arr arr' : Vector ℕ) (hitems : arr'.items = arr.items ++ [v]) :
    Pushes v (.index xpcArrayAppend) (.array arr) (.array arr')

/-- A slot that the copying stores in: one that the container does not have. -/
inductive NewSlot : Slot → Body → Prop where
  | key (key : CString) (head : List (CString × ℕ)) (conn : Option ℕ) (msgid : ℕ)
    (hnew : KeyedList.find KeyedList.same head key = none) :
    NewSlot (.key key) (.dictionary head conn msgid)
  | append (arr : Vector ℕ) (hfits : arr.items.length < 2 ^ 60) :
    NewSlot (.index xpcArrayAppend) (.array arr)

section

variable {h h₀ h' g g' : Objects} {owed : ℕ → ℕ} {a c n m depth v x : ℕ} {body body' : Body}
  {slot : Slot}

/-- What a value reaches is there. -/
lemma Within.cell (hw : Within h n a) (hx : h.Reaches Body.refs a x) : ∃ e, h.cell x = some e := by
  have hreach : ∃ m, Within h m x := by
    induction hx with
    | refl => exact ⟨n, hw⟩
    | tail _ hstep ih =>
      obtain ⟨m, hm⟩ := ih
      obtain ⟨p, hp, hmem⟩ := hstep
      cases m with
      | zero => exact hm.elim
      | succ m =>
        obtain ⟨e, he, -, hrefs⟩ := hm
        rw [Heap.object, he, Option.map_some] at hp
        obtain rfl := Option.some_inj.mp hp
        exact ⟨m, hrefs _ hmem⟩
  obtain ⟨m, hm⟩ := hreach
  cases m with
  | zero => exact hm.elim
  | succ m =>
    obtain ⟨e, he, -⟩ := hm
    exact ⟨e, he⟩

/-- So its address is in use. -/
lemma Within.mem_dom (hw : Within h n a) (hx : h.Reaches Body.refs a x) : x ∈ h.dom := by
  obtain ⟨e, he⟩ := hw.cell hx
  exact h.mem_dom x (by simp [he])

/-- A value is one in every heap that has the same objects where it reaches. -/
lemma Within.frame (hw : Within h n a)
    (hsame : ∀ x, h.Reaches Body.refs a x → g.object x = h.object x) : Within g n a := by
  induction n generalizing a with
  | zero => exact hw
  | succ n ih =>
    obtain ⟨e, he, hplain, hrefs⟩ := hw
    obtain ⟨e', he', hbody, -⟩ := Heap.cell_of_object (hsame a Relation.ReflTransGen.refl) he
    refine ⟨e', he', hbody ▸ hplain, fun x hx => ih (hrefs x (hbody ▸ hx)) fun y hy => ?_⟩
    exact hsame y (reaches_step (by rw [he, Option.map_some]) (hbody ▸ hx) hy)

/-- A value of the heap that was there at first is one while a container is being filled. -/
lemma Filling.within (hf : Filling h₀ owed c g body) (hw : Within h₀ n x) : Within g n x :=
  hw.frame fun y hy => hf.same y (hw.mem_dom hy)

/-- A copy is one as long as nothing but the container that is being filled changes. -/
lemma CopyAt.frame (hc : CopyAt h₀ c n g v x) (hf : Filling h₀ owed c g body)
    (hother : ∀ y ∈ g.dom, y ≠ c → g'.object y = g.object y) :
    CopyAt h₀ c n g' v x := by
  have hv : ∀ y, g.Reaches Body.refs v y → g'.object y = g.object y := fun y hy =>
    hother y (hc.within.mem_dom hy) (hc.apart y hy).2
  have hxsame : ∀ y, g.Reaches Body.refs x y → g'.object y = g.object y := by
    intro y hy
    have hmem : y ∈ h₀.dom :=
      hc.original.mem_dom
        ((Heap.reaches_frame fun z hz => hf.same z (hc.original.mem_dom hz)).mp hy)
    refine hother y (hf.dom hmem) ?_
    rintro rfl
    exact hf.fresh hmem
  refine ⟨hc.original, hc.within.frame hv, fun y hy => hc.apart y ((Heap.reaches_frame hv).mp hy),
    fun depth hdepth => ?_⟩
  rw [xpcEqual_frame hv hxsame]
  exact hc.equal depth hdepth

/-- A value is stored in a new slot. -/
lemma pushed_new {e : Cell Body} (hbal : Balanced Body.refs h owed []) (hc : h.cell c = some e)
    (halive : h.Alive c) (hsound : e.body.Sound) (hnew : NewSlot slot e.body) (hv : h.Alive v) :
    ∃ h' body', (∀ depth, 64 ≤ depth → setValue depth h c slot v = some h') ∧
      Pushed h h' owed c e slot v ∧ h'.object c = some (body', e.immortal) ∧
      Pushes v slot e.body body' ∧ v ∈ body'.refs := by
  obtain ⟨body, hbody⟩ : ∃ b, b = e.body := ⟨_, rfl⟩
  rw [← hbody] at hnew
  cases hnew with
  | key key head conn msgid hnone =>
    obtain ⟨h', hcall, hpushed, hobj⟩ := pushed_key hbal hc halive hbody.symm hnone hv
    exact ⟨h', _, fun depth _ => hcall depth, hpushed, hobj, hbody ▸ .key key head conn msgid,
      by simp [Body.refs]⟩
  | append arr hfits =>
    have harr : arr.WellFormed := by
      rw [← hbody] at hsound
      exact hsound
    have hnone : arr.items[xpcArrayAppend]? = none :=
      List.getElem?_eq_none_iff.mpr (Nat.le_of_lt (Body.length_lt_append harr))
    have htakes : e.body.Takes (.index xpcArrayAppend) := by
      rw [← hbody]
      exact ⟨harr, by norm_num [xpcArrayAppend]⟩
    have hgrows : e.body.Grows (.index xpcArrayAppend) := by
      rw [← hbody]
      intro index hindex
      obtain rfl := Slot.index.inj hindex
      rw [if_pos rfl]
      exact hfits
    obtain ⟨h', nulls, arr', hcall, hpushed, hobj, hitems, hnulls⟩ :=
      pushed_item hbal hc halive hbody.symm htakes hnone hgrows hv
    rw [hnulls rfl, List.append_nil] at hitems
    exact ⟨h', _, hcall, hpushed, hobj, hbody ▸ .append arr arr' hitems,
      by simp [Body.refs, hitems]⟩

/-- **One element** is copied and stored.

**Proof sketch.** The copy has the references of the slot and of the caller when the latter is
released. -/
lemma Filling.step
    (hcopy : ∀ g owed x, Balanced Body.refs g owed [] → Within g n x → ∃ g' v,
      (∀ depth, n + 64 ≤ depth → xpcCopy depth g x = some (g', v)) ∧ Copied n g g' owed x v)
    (hf : Filling h₀ owed c g body) (hx : Within h₀ n x) (hnew : NewSlot slot body) :
    ∃ g' v body', (∀ depth rest, n + 64 ≤ depth →
      copyElements (xpcCopy depth) depth c ((slot, x) :: rest) g =
        copyElements (xpcCopy depth) depth c rest g') ∧
      Filling h₀ owed c g' body' ∧ CopyAt h₀ c n g' v x ∧ Pushes v slot body body' ∧
      ∀ y ∈ g.dom, y ≠ c → g'.object y = g.object y := by
  obtain ⟨g₁, v, hcall₁, hcopied⟩ := hcopy g (oneMore owed c) x hf.balanced (hf.within hx)
  have hcdom : c ∈ g.dom := by
    obtain ⟨e, he, -⟩ := hf.alive
    exact g.mem_dom c (by simp [he])
  have hvc : v ≠ c := by
    rintro rfl
    exact hcopied.fresh hcdom
  -- the container is the same after the copying
  obtain ⟨e, he, hpair⟩ := Option.map_eq_some_iff.mp ((hcopied.same c hcdom).trans hf.object)
  obtain ⟨hebody, heimm⟩ : e.body = body ∧ e.immortal = false := Prod.mk.inj hpair
  have hsound₁ : ∀ y c', y ∉ h₀.dom → g₁.cell y = some c' → c'.body.Sound := by
    intro y c' hy hc'
    by_cases hmem : y ∈ g.dom
    · obtain ⟨c'', hc'', hbody, -⟩ := Heap.cell_of_object (hcopied.same y hmem).symm hc'
      exact hbody ▸ hf.sound y c'' hy hc''
    · exact hcopied.sound y c' hmem hc'
  rw [← hebody] at hnew
  obtain ⟨g₂, body', hcall₂, hpushed, hobj₂, hpushes, hmem⟩ := pushed_new hcopied.balanced he
    (hcopied.kept c hf.alive) (hsound₁ c e hf.fresh he) hnew hcopied.alive
  have hvdom : v ∈ g₁.dom := by
    obtain ⟨e', he', -⟩ := hcopied.alive
    exact g₁.mem_dom v (by simp [he'])
  obtain ⟨e₂, he₂, hpair₂⟩ := Option.map_eq_some_iff.mp hobj₂
  have hheld : v ∈ g₂.held Body.refs c := by
    have hbody₂ : e₂.body = body' := congrArg Prod.fst hpair₂
    rw [Heap.held_eq he₂ (hpushed.kept c (hcopied.kept c hf.alive)), hbody₂]
    exact hmem
  have hmortal : ¬g₂.Immortal v := fun hi =>
    hcopied.mortal ((Heap.immortal_of_object (hpushed.other v hvdom hvc)).mp hi)
  obtain ⟨g₃, hcall₃, hbal₃, hsame₃⟩ := release_held hpushed.balanced hheld hmortal
  have hother : ∀ y ∈ g₁.dom, y ≠ c → g₃.object y = g₁.object y := fun y hy hne =>
    (hsame₃.object y).trans (hpushed.other y hy hne)
  have hother₀ : ∀ y ∈ g.dom, y ≠ c → g₃.object y = g.object y := fun y hy hne =>
    (hother y (hcopied.dom hy) hne).trans (hcopied.same y hy)
  refine ⟨g₃, v, body', fun depth rest hdepth => ?_, ⟨hbal₃, ?_, ?_, hf.fresh, ?_, fun y hy => ?_,
    fun y hy => ?_, fun y c' hy hc' => ?_⟩, ?_, hebody ▸ hpushes, hother₀⟩
  · obtain ⟨k, hk⟩ : ∃ k, depth = k + 1 := ⟨depth - 1, by omega⟩
    rw [copyElements, hcall₁ depth hdepth]
    simp only [Option.bind_some, hcall₂ depth (by omega)]
    rw [xpcRelease, hk, hcall₃ k]
    rfl
  · rw [hsame₃.object c, hobj₂, heimm]
  · exact (hsame₃.alive c).mpr (hpushed.kept c (hcopied.kept c hf.alive))
  · rw [hsame₃.dom]
    exact hf.dom.trans (hcopied.dom.trans hpushed.dom)
  · exact (hsame₃.alive y).mpr (hpushed.kept y (hcopied.kept y (hf.kept y hy)))
  · have hne : y ≠ c := by
      rintro rfl
      exact hf.fresh hy
    exact (hother₀ y (hf.dom hy) hne).trans (hf.same y hy)
  · obtain ⟨c'', hc'', hbody, -⟩ := Heap.cell_of_object (hsame₃.object y).symm hc'
    rw [← hbody]
    by_cases hyc : y = c
    · subst hyc
      exact hpushed.sound (hsound₁ y e hy he) c'' hc''
    · by_cases hydom : y ∈ g₁.dom
      · obtain ⟨c₁, hc₁, hbody₁, -⟩ := Heap.cell_of_object (hpushed.other y hydom hyc).symm hc''
        exact hbody₁ ▸ hsound₁ y c₁ hy hc₁
      · exact hpushed.fresh y c'' hydom hc''
  · -- neither the copy nor the element reaches the container
    have hvsame : ∀ y, g₁.Reaches Body.refs v y → g₃.object y = g₁.object y := by
      intro y hy
      refine hother y (hcopied.within.mem_dom hy) ?_
      rintro rfl
      exact hcopied.apart y hy hcdom
    have hxsame : ∀ y, g₁.Reaches Body.refs x y → g₃.object y = g₁.object y := by
      intro y hy
      have hxg := hf.within hx
      have hyg : g.Reaches Body.refs x y :=
        (Heap.reaches_frame fun z hz => hcopied.same z (hxg.mem_dom hz)).mp hy
      have hy₀ : h₀.Reaches Body.refs x y :=
        (Heap.reaches_frame fun z hz => hf.same z (hx.mem_dom hz)).mp hyg
      refine hother y (hcopied.dom (hxg.mem_dom hyg)) ?_
      rintro rfl
      exact hf.fresh (hx.mem_dom hy₀)
    refine ⟨hx, hcopied.within.frame hvsame, fun y hy => ?_, fun depth hdepth => ?_⟩
    · have hy₁ := (Heap.reaches_frame hvsame).mp hy
      have hyg := hcopied.apart y hy₁
      refine ⟨fun hy₀ => hyg (hf.dom hy₀), ?_⟩
      rintro rfl
      exact hyg hcdom
    · rw [xpcEqual_frame hvsame hxsame]
      exact hcopied.equal depth hdepth

/-- **The loop over the items of an array** leaves a copy of each. -/
lemma Filling.items
    (hcopy : ∀ g owed x, Balanced Body.refs g owed [] → Within g n x → ∃ g' v,
      (∀ depth, n + 64 ≤ depth → xpcCopy depth g x = some (g', v)) ∧ Copied n g g' owed x v)
    {arr : Vector ℕ} {xs ys : List ℕ} (hf : Filling h₀ owed c g (.array arr))
    (hxs : ∀ x ∈ xs, Within h₀ n x) (hdone : List.Forall₂ (CopyAt h₀ c n g) arr.items ys)
    (hlen : arr.items.length + xs.length ≤ 2 ^ 60) :
    ∃ g' arr', (∀ depth, n + 64 ≤ depth → copyElements (xpcCopy depth) depth c
        (xs.map fun x => (.index xpcArrayAppend, x)) g = some g') ∧
      Filling h₀ owed c g' (.array arr') ∧
      List.Forall₂ (CopyAt h₀ c n g') arr'.items (ys ++ xs) := by
  induction xs generalizing g arr ys with
  | nil => exact ⟨g, arr, fun _ _ => rfl, hf, by rwa [List.append_nil]⟩
  | cons x xs ih =>
    rw [List.length_cons] at hlen
    obtain ⟨g₁, v, body', hcall, hf₁, hv, hpushes, hother⟩ :=
      hf.step hcopy (hxs x List.mem_cons_self) (.append arr (by omega))
    cases hpushes with
    | append _ arr₁ hitems =>
      have hdone₁ : List.Forall₂ (CopyAt h₀ c n g₁) arr₁.items (ys ++ [x]) := by
        rw [hitems]
        exact List.rel_append (hdone.imp fun _ _ hcopied => hcopied.frame hf hother)
          (.cons hv .nil)
      obtain ⟨g', arr', hrest, hf', hdone'⟩ := ih hf₁
        (fun y hy => hxs y (List.mem_cons_of_mem _ hy)) hdone₁ (by simp [hitems]; omega)
      refine ⟨g', arr', fun depth hdepth => ?_, hf', by simpa using hdone'⟩
      rw [List.map_cons, hcall depth _ hdepth, hrest depth hdepth]

/-- **The loop over the entries of a dictionary** leaves a copy of each value under its key. -/
lemma Filling.entries
    (hcopy : ∀ g owed x, Balanced Body.refs g owed [] → Within g n x → ∃ g' v,
      (∀ depth, n + 64 ≤ depth → xpcCopy depth g x = some (g', v)) ∧ Copied n g g' owed x v)
    (done : List (CString × ℕ)) {head kvs : List (CString × ℕ)}
    (hf : Filling h₀ owed c g (.dictionary head none 0))
    (hkvs : ∀ kv ∈ kvs, Within h₀ n kv.2) (hlen : head.length = done.length)
    (hdone : ∀ kv ∈ head, ∃ x, (kv.1, x) ∈ done ∧ CopyAt h₀ c n g kv.2 x)
    (hdistinct : KeyedList.Distinct KeyedList.same (done ++ kvs)) :
    ∃ g' head', (∀ depth, n + 64 ≤ depth → copyElements (xpcCopy depth) depth c
        (kvs.map fun kv => (.key kv.1, kv.2)) g = some g') ∧
      Filling h₀ owed c g' (.dictionary head' none 0) ∧ head'.length = (done ++ kvs).length ∧
      ∀ kv ∈ head', ∃ x, (kv.1, x) ∈ done ++ kvs ∧ CopyAt h₀ c n g' kv.2 x := by
  induction kvs generalizing g head done with
  | nil => exact ⟨g, head, fun _ _ => rfl, hf, by rwa [List.append_nil], by simpa using hdone⟩
  | cons e kvs ih =>
    obtain ⟨key, x⟩ := e
    have hnew : KeyedList.find KeyedList.same head key = none := by
      refine KeyedList.find_eq_none_iff.mpr fun kv hkv => ?_
      obtain ⟨y, hy, -⟩ := hdone kv hkv
      exact (List.pairwise_append.mp hdistinct).2.2 _ hy _ List.mem_cons_self
    obtain ⟨g₁, v, body', hcall, hf₁, hv, hpushes, hother⟩ :=
      hf.step hcopy (hkvs _ List.mem_cons_self) (.key key head none 0 hnew)
    cases hpushes with
    | key =>
      have hdone₁ : ∀ kv ∈ (key, v) :: head, ∃ y, (kv.1, y) ∈ done ++ [(key, x)] ∧
          CopyAt h₀ c n g₁ kv.2 y := by
        refine List.forall_mem_cons.mpr ⟨⟨x, by simp, hv⟩, fun kv hkv => ?_⟩
        obtain ⟨y, hy, hcopied⟩ := hdone kv hkv
        exact ⟨y, List.mem_append_left _ hy, hcopied.frame hf hother⟩
      have hlen₁ : ((key, v) :: head).length = (done ++ [(key, x)]).length := by simp [hlen]
      obtain ⟨g', head', hrest, hf', hlen', hdone'⟩ := ih (done ++ [(key, x)]) hf₁
        (fun y hy => hkvs y (List.mem_cons_of_mem _ hy)) hlen₁ hdone₁ (by simpa using hdistinct)
      refine ⟨g', head', fun depth hdepth => ?_, hf', by simpa using hlen', by simpa using hdone'⟩
      rw [List.map_cons, hcall depth _ hdepth, hrest depth hdepth]

/-- A new object is a container that is about to be filled. -/
lemma Filling.start (hbal : Balanced Body.refs h owed []) (hrefs : body.refs = [])
    (hsound : body.Sound) :
    Filling h owed (xpcObjectAlloc h body).2 (xpcObjectAlloc h body).1 body := by
  have hother : ∀ y ∈ h.dom, (xpcObjectAlloc h body).1.cell y = h.cell y := by
    intro y hy
    refine Heap.put_of_ne ?_
    rintro rfl
    exact fresh_notMem h hy
  have hcell : (xpcObjectAlloc h body).1.cell (xpcObjectAlloc h body).2 = some ⟨1, false, body⟩ :=
    Heap.put_same
  refine ⟨balanced_alloc hbal (fresh_notMem h) hrefs, ?_, ⟨_, hcell, .inr Int.one_pos⟩,
    fresh_notMem h, Finset.subset_insert _ _, fun y hy => ?_, fun y hy => ?_, fun y c' hy hc' => ?_⟩
  · rw [Heap.object, hcell, Option.map_some]
  · obtain ⟨e, he, -⟩ := id hy
    exact (Heap.alive_congr (hother y (h.mem_dom y (by simp [he])))).mpr hy
  · rw [Heap.object, Heap.object, hother y hy]
  · by_cases hyc : y = (xpcObjectAlloc h body).2
    · subst hyc
      obtain rfl := Option.some_inj.mp (hcell.symm.trans hc')
      exact hsound
    · have hcell' : h.cell y = some c' := (Heap.put_of_ne hyc).symm.trans hc'
      exact absurd (h.mem_dom y (by simp [hcell'])) hy

/-- A container that has been filled is a copy. -/
lemma Filling.copied {e : Cell Body} (hf : Filling h owed c g body) (hplain : body.Plain)
    (helems : ∀ v ∈ body.refs, ∃ x, CopyAt h c n g v x) (ho : h.cell a = some e)
    (hequal : ∀ depth, n ≤ depth → bodyEqual (xpcEqual depth g) body e.body = some true) :
    Copied (n + 1) h g owed a c := by
  obtain ⟨e', he', hpair⟩ := Option.map_eq_some_iff.mp hf.object
  obtain ⟨hbody, himm⟩ : e'.body = body ∧ e'.immortal = false := Prod.mk.inj hpair
  have hadom : a ∈ h.dom := h.mem_dom a (by simp [ho])
  refine ⟨hf.balanced, hf.fresh, hf.alive, ?_, hf.dom, hf.kept, hf.same, hf.sound,
    ⟨e', he', hbody ▸ hplain, fun v hv => ?_⟩, fun y hy => ?_, fun depth hdepth => ?_⟩
  · rw [Heap.immortal_iff he', himm]
    exact Bool.false_ne_true
  · obtain ⟨x, hx⟩ := helems v (hbody ▸ hv)
    exact hx.within
  · rcases Relation.ReflTransGen.cases_head hy with rfl | ⟨v, ⟨p, hp, hmem⟩, hreach⟩
    · exact hf.fresh
    · obtain rfl := Option.some_inj.mp (hf.object.symm.trans hp)
      obtain ⟨x, hx⟩ := helems v hmem
      exact (hx.apart y hreach).1
  · obtain ⟨k, rfl⟩ : ∃ k, depth = k + 1 := ⟨depth - 1, by omega⟩
    have hne : c ≠ a := by
      rintro rfl
      exact hf.fresh hadom
    obtain ⟨e'', he'', hbody'', -⟩ := Heap.cell_of_object (hf.same a hadom) ho
    rw [xpcEqual, if_neg hne, he', he'', Option.map_some, Option.map_some, hbody, hbody'']
    exact hequal k (by omega)

/-- The container is sound. -/
lemma Filling.soundBody (hf : Filling h₀ owed c g body) : body.Sound := by
  obtain ⟨e, he, hpair⟩ := Option.map_eq_some_iff.mp hf.object
  have hbody : e.body = body := congrArg Prod.fst hpair
  exact hbody ▸ hf.sound c e hf.fresh he

/-- Every item of a list that matches another has something there. -/
lemma exists_of_forall₂ {R : ℕ → ℕ → Prop} {xs ys : List ℕ} (hall : List.Forall₂ R xs ys) :
    ∀ x ∈ xs, ∃ y, R x y := by
  induction hall with
  | nil => exact fun _ hx => absurd hx List.not_mem_nil
  | cons hxy _ ih => exact List.forall_mem_cons.mpr ⟨⟨_, hxy⟩, ih⟩

/-- Items that compare equal make arrays that do. -/
lemma itemsEqual_true {equal : ℕ → ℕ → Option Bool} {xs ys : List ℕ}
    (hall : List.Forall₂ (fun x y => equal x y = some true) xs ys) :
    itemsEqual equal xs ys = some true := by
  induction hall with
  | nil => rfl
  | cons hxy _ ih => rw [itemsEqual, hxy, Option.bind_some, if_pos rfl, ih]

/-- And entries that do make dictionaries. -/
lemma entriesEqual_true {equal : ℕ → ℕ → Option Bool} {head kvs : List (CString × ℕ)}
    (hall : ∀ kv ∈ kvs, ∃ bv, KeyedList.find KeyedList.same head kv.1 = some bv ∧
      equal kv.2 bv = some true) :
    entriesEqual equal head kvs = some true := by
  induction kvs with
  | nil => rfl
  | cons kv kvs ih =>
    obtain ⟨⟨bv, hfind, hequal⟩, hrest⟩ := List.forall_mem_cons.mp hall
    simp only [entriesEqual, hfind, hequal, Option.bind_some, if_pos, ih hrest]

/-- **Every value is copied.** The copying returns, and leaves behind a copy that compares equal,
while the objects that there were have not changed.

**Proof sketch.** By induction on the length of the paths from the object, with the filling of a
container as the invariant of the loops. -/
theorem xpcCopy_spec (hbal : Balanced Body.refs h owed []) (ha : Within h n a) :
    ∃ h' copy, (∀ depth, n + 64 ≤ depth → xpcCopy depth h a = some (h', copy)) ∧
      Copied n h h' owed a copy := by
  induction n generalizing h owed a with
  | zero => exact ha.elim
  | succ n ih =>
    have hcopy : ∀ g owed x, Balanced Body.refs g owed [] → Within g n x → ∃ g' v,
        (∀ depth, n + 64 ≤ depth → xpcCopy depth g x = some (g', v)) ∧ Copied n g g' owed x v :=
      fun _ _ _ => ih
    obtain ⟨e, he, hplain, hrefs⟩ := ha
    obtain ⟨body, hbody⟩ : ∃ b, b = e.body := ⟨_, rfl⟩
    have hcast : (h.cell a).map Cell.body = some body := by rw [he, Option.map_some, hbody]
    have hdepth : ∀ {depth}, n + 1 + 64 ≤ depth → ∃ k, depth = k + 1 ∧ n + 64 ≤ k := fun {depth} hd =>
      ⟨depth - 1, by omega, by omega⟩
    -- an object that refers to nothing is made anew
    have hscalar : body.refs = [] → body.Sound → (∀ equal, bodyEqual equal body body = some true) →
        (∀ depth, xpcCopy (depth + 1) h a = some (xpcObjectAlloc h body)) →
        ∃ h' copy, (∀ depth, n + 1 + 64 ≤ depth → xpcCopy depth h a = some (h', copy)) ∧
          Copied (n + 1) h h' owed a copy := by
      intro hnone hsound hequal hcall
      refine ⟨_, _, fun depth hd => ?_, (Filling.start hbal hnone hsound).copied (hbody ▸ hplain)
        (fun v hv => absurd (hnone ▸ hv) List.not_mem_nil) he fun _ _ => hbody ▸ hequal _⟩
      obtain ⟨k, rfl, -⟩ := hdepth hd
      exact hcall k
    rw [← hbody] at hplain hrefs
    cases body with
    | array arr =>
      have hsmall : arr.items.length ≤ 2 ^ 60 := by
        have hle := hplain.length_le
        rcases hplain.room with ⟨hzero, -⟩ | ⟨j, -, hj, hpow, -⟩
        · omega
        · have hpow60 : 2 ^ j ≤ 2 ^ 60 := Nat.pow_le_pow_right Nat.two_pos hj
          omega
      have hempty : (⟨[], 0, 0⟩ : Vector ℕ).WellFormed := ⟨le_refl 0, .inl ⟨rfl, rfl⟩⟩
      have hitems : ∀ x ∈ arr.items, Within h n x := hrefs
      have hstart := Filling.start hbal (show (Body.array ⟨[], 0, 0⟩).refs = [] from rfl) hempty
      obtain ⟨g', arr', hcall, hf, hcopies⟩ :=
        hstart.items hcopy hitems .nil (by simpa using hsmall)
      rw [List.nil_append] at hcopies
      refine ⟨g', _, fun depth hd => ?_, hf.copied hf.soundBody (exists_of_forall₂ hcopies) he
        fun depth hd => ?_⟩
      · obtain ⟨k, rfl, hk⟩ := hdepth hd
        rw [xpcCopy, hcast]
        dsimp only
        rw [hcall k hk]
        rfl
      · have hlen : ¬arr'.items.length ≠ arr.items.length := not_not.mpr hcopies.length_eq
        rw [← hbody, bodyEqual, if_neg hlen]
        exact itemsEqual_true (hcopies.imp fun _ _ hcopied => hcopied.equal depth hd)
    | dictionary head conn msgid =>
      obtain ⟨-, hdistinct⟩ := hplain
      have hentries : ∀ kv ∈ head, Within h n kv.2 := fun kv hkv => hrefs _ (mem_refs_of_mem hkv)
      have hstart := Filling.start hbal (show (Body.dictionary [] none 0).refs = [] from rfl) .nil
      obtain ⟨g', head', hcall, hf, hlen, hcopies⟩ := Filling.entries hcopy [] hstart hentries
        rfl (fun _ hkv => absurd hkv List.not_mem_nil) hdistinct
      rw [List.nil_append] at hlen hcopies
      have helems : ∀ v ∈ (Body.dictionary head' none 0).refs, ∃ x,
          CopyAt h (xpcObjectAlloc h (.dictionary [] none 0)).2 n g' v x := by
        intro v hv
        rw [Body.refs, Option.toList_none, List.append_nil] at hv
        obtain ⟨kv, hkv, rfl⟩ := List.mem_map.mp hv
        obtain ⟨x, -, hcopied⟩ := hcopies kv hkv
        exact ⟨x, hcopied⟩
      refine ⟨g', _, fun depth hd => ?_, hf.copied ⟨rfl, hf.soundBody⟩ helems he
        fun depth hd => ?_⟩
      · obtain ⟨k, rfl, hk⟩ := hdepth hd
        rw [xpcCopy, hcast]
        dsimp only
        rw [hcall k hk]
        rfl
      · have hlen' : ¬head'.length ≠ head.length := not_not.mpr hlen
        rw [← hbody, bodyEqual, if_neg hlen']
        refine entriesEqual_true fun kv hkv => ?_
        obtain ⟨x, hx, hcopied⟩ := hcopies kv hkv
        exact ⟨x, (KeyedList.find_eq_some_iff KeyedList.lawful_same hdistinct).mpr
          ⟨kv.1, hx, KeyedList.lawful_same.refl _⟩, hcopied.equal depth hd⟩
    | double d => exact hplain.elim
    | connection peers => exact hplain.elim
    | error s => exact hplain.elim
    | null => exact hscalar rfl trivial (fun _ => rfl) fun depth => by rw [xpcCopy, hcast]
    | bool b =>
      exact hscalar rfl trivial (fun _ => by simp [bodyEqual]) fun depth => by rw [xpcCopy, hcast]
    | int64 v =>
      exact hscalar rfl trivial (fun _ => by simp [bodyEqual]) fun depth => by rw [xpcCopy, hcast]
    | uint64 v =>
      exact hscalar rfl trivial (fun _ => by simp [bodyEqual]) fun depth => by rw [xpcCopy, hcast]
    | string bs =>
      exact hscalar rfl trivial (fun _ => by simp [bodyEqual]) fun depth => by rw [xpcCopy, hcast]
    | data bs =>
      exact hscalar rfl trivial (fun _ => by simp [bodyEqual]) fun depth => by rw [xpcCopy, hcast]

/-! ## What is done later -/

/-- A call that returns was for a slot of the container. -/
lemma takes_of_setValue {e : Cell Body} (hc : h.cell c = some e) (hsound : e.body.Sound)
    (hindex : ∀ index, slot = .index index → index < 2 ^ 64)
    (hcall : setValue depth h c slot v = some h') : e.body.Takes slot := by
  have hcast : (h.cell c).map Cell.body = some e.body := by rw [hc, Option.map_some]
  revert hsound hcast
  generalize e.body = body
  intro hsound hcast
  cases slot with
  | key key =>
    cases body with
    | dictionary head conn msgid => trivial
    | _ => simp [setValue, xpcDictionarySetValue, hcast] at hcall
  | index index =>
    cases body with
    | array arr => exact ⟨hsound, hindex index rfl⟩
    | _ => simp [setValue, xpcArraySetValue, hcast] at hcall

/-- **One step leaves the old objects alone.**

**Proof sketch.** Nobody has taken away a reference that there was before, so every object that was
alive is kept by the references that kept it. -/
lemma Unchanged.step {s s' : Objects × (ℕ → ℕ)} (hbal : Balanced Body.refs h₀ owed [])
    (hu : Unchanged h₀ owed s) (hstep : LaterStep h₀.dom s s') : Unchanged h₀ owed s' := by
  have hmem : ∀ {x}, h₀.Alive x → x ∈ h₀.dom := fun ⟨e, he, _⟩ => h₀.mem_dom _ (by simp [he])
  cases hstep with
  | set depth h h' held d slot v hnew halive hv hindex hcall =>
    obtain ⟨e, he, -⟩ := id halive
    have hsound := hu.sound d e hnew he
    have htakes := takes_of_setValue he hsound hindex hcall
    obtain ⟨-, hstored⟩ := setValue_spec hu.balanced he halive htakes hv hcall
    have hne : ∀ {x}, h₀.Alive x → x ≠ d := by
      rintro x hx rfl
      exact hnew (hmem hx)
    have hkept : ∀ x, h₀.Alive x → h'.Alive x := by
      intro x hx
      refine hstored.kept x (hu.kept x hx).1 ?_
      refine kept_of_same hbal (fun _ => Nat.le_add_right _ _) (fun y hy => ⟨?_, ?_⟩) hx
      · exact ((sameBut_put he _).alive y).mpr (hu.kept y hy).1
      · rw [Heap.object, Heap.put_of_ne (hne hy)]
        exact (hu.kept y hy).2
    refine ⟨hstored.balanced, fun x hx => ⟨hkept x hx, ?_⟩, hu.dom.trans hstored.dom,
      fun x c' hx hc' => ?_⟩
    · obtain ⟨c', hc', -⟩ := hkept x hx
      exact (hstored.other x c' (hu.dom (hmem hx)) (hne hx) hc').trans (hu.kept x hx).2
    · by_cases hxd : x = d
      · subst hxd
        exact hstored.sound hsound c' hc'
      · by_cases hxdom : x ∈ h.dom
        · obtain ⟨c₁, hc₁, hbody, -⟩ :=
            Heap.cell_of_object (hstored.other x c' hxdom hxd hc').symm hc'
          exact hbody ▸ hu.sound x c₁ hx hc₁
        · exact hstored.fresh x c' hxdom hc'
  | create h held body hrefs hsound =>
    have hf := Filling.start hu.balanced hrefs hsound
    refine ⟨?_, fun x hx => ⟨hf.kept x (hu.kept x hx).1, ?_⟩, hu.dom.trans hf.dom,
      fun x c' hx hc' => ?_⟩
    · have howed : oneMore (fun x => owed x + held x) (xpcObjectAlloc h body).2 =
          fun x => owed x + oneMore held (xpcObjectAlloc h body).2 x := by
        funext x
        exact Nat.add_assoc _ _ _
      exact howed ▸ hf.balanced
    · exact (hf.same x (hu.dom (hmem hx))).trans (hu.kept x hx).2
    · by_cases hxdom : x ∈ h.dom
      · obtain ⟨c₁, hc₁, hbody, -⟩ := Heap.cell_of_object (hf.same x hxdom).symm hc'
        exact hbody ▸ hu.sound x c₁ hx hc₁
      · exact hf.sound x c' hxdom hc'
  | drop depth h h' held a hcall =>
    have hpending : Balanced Body.refs h (fun x => owed x + held x) [a] := by
      intro x hx
      have hcount := hu.balanced x hx
      simp only [oneMore, List.count_nil] at hcount
      simp only [hcount, List.count_singleton, beq_iff_eq, eq_comm (a := x)]
      split_ifs <;> omega
    obtain ⟨k, g, hrel, hbal', hafter, hlive⟩ := release_exact hpending
    obtain rfl := release_congr hcall hrel
    have hkept : ∀ x, h₀.Alive x → h'.Alive x := fun x hx => (hlive x).mpr
      ⟨(hu.kept x hx).1, kept_of_same hbal (fun _ => Nat.le_add_right _ _) hu.kept hx⟩
    have hobj : ∀ x c', h'.cell x = some c' → h'.object x = h.object x := by
      intro x c' hc'
      obtain ⟨c₁, hc₁, hbody, himm⟩ := hafter.body x c' hc'
      rw [Heap.object, Heap.object, hc', hc₁, Option.map_some, Option.map_some, hbody, himm]
    refine ⟨hbal', fun x hx => ⟨hkept x hx, ?_⟩, hafter.dom ▸ hu.dom, fun x c' hx hc' => ?_⟩
    · obtain ⟨c', hc', -⟩ := hkept x hx
      exact (hobj x c' hc').trans (hu.kept x hx).2
    · obtain ⟨c₁, hc₁, hbody, -⟩ := hafter.body x c' hc'
      exact hbody ▸ hu.sound x c₁ hx hc₁

/-- **Whatever is done later leaves the old objects alone.** -/
theorem later_unchanged {s s' : Objects × (ℕ → ℕ)} (hbal : Balanced Body.refs h₀ owed [])
    (hu : Unchanged h₀ owed s) (hrun : Relation.ReflTransGen (LaterStep h₀.dom) s s') :
    Unchanged h₀ owed s' := by
  induction hrun with
  | refl => exact hu
  | tail _ hstep ih => exact ih.step hbal hstep

/-- After the copying nothing has been done yet. -/
lemma Copied.unchanged {copy : ℕ} (hc : Copied n h h' owed a copy) :
    Unchanged h owed (h', oneMore (fun _ => 0) copy) := by
  have hmem : ∀ {x}, h.Alive x → x ∈ h.dom := fun ⟨e, he, _⟩ => h.mem_dom _ (by simp [he])
  refine ⟨?_, fun x hx => ⟨hc.kept x hx, hc.same x (hmem hx)⟩, hc.dom, hc.sound⟩
  have howed : oneMore owed copy = fun x => owed x + oneMore (fun _ => 0) copy x := by
    funext x
    simp [oneMore]
  exact howed ▸ hc.balanced

/-- What a live value reaches is alive, if the counts are right. -/
lemma Within.alive (hbal : Balanced Body.refs h owed []) (hw : Within h n a) (ha : h.Alive a)
    (hx : h.Reaches Body.refs a x) : h.Alive x := by
  induction hx with
  | refl => exact ha
  | @tail y z hreach hstep ih =>
    obtain ⟨p, hp, hmem⟩ := hstep
    obtain ⟨e, he, rfl⟩ := Option.map_eq_some_iff.mp hp
    have hheld : z ∈ h.held Body.refs y := by
      rw [Heap.held_eq he ih]
      exact hmem
    obtain ⟨e', he'⟩ := hw.cell (hreach.tail ⟨_, hp, hmem⟩)
    rw [Heap.alive_iff he']
    by_cases himm : e'.immortal = true
    · exact .inl himm
    · have hcount := hbal z fun hi => himm ((Heap.immortal_iff he').mp hi)
      have hpos := Heap.inDegree_pos hheld
      rw [Heap.count_eq he', List.count_nil] at hcount
      exact .inr (by omega)

/-- **Comparing and copying agree.** On values, which have no cycles, the comparison returns and is an
equivalence. The copying returns, too: the copy compares equal to the object, and shares nothing with
the objects that there were, which have not changed. Whatever is stored later in other containers
than these, such as those of the copy, by calls that return, leaves all that the object refers to
as it was.

**Proof sketch.** By induction on the length of the paths from an object, with the references from
outside for what the loops of the copying hold. Later nobody takes away a reference that there was,
so every object that was alive is kept. -/
theorem equal_and_copy_agree (h : Objects) (owed : ℕ → ℕ) (hbal : Balanced Body.refs h owed []) :
    (∀ a b, Value h a → Value h b → ∃ r n, ∀ depth, n ≤ depth → xpcEqual depth h a b = some r) ∧
    (Equivalence fun a b : { a // Value h a } => Equals h a b) ∧
    ∀ o, Value h o → h.Alive o → ∃ n h' copy,
      (∀ depth, n ≤ depth → xpcCopy depth h o = some (h', copy)) ∧ Equals h' copy o ∧
      (∀ x, h'.Reaches Body.refs copy x → x ∉ h.dom) ∧
      (∀ x ∈ h.dom, h'.object x = h.object x) ∧
      ∀ s, Relation.ReflTransGen (LaterStep h.dom) (h', oneMore (fun _ => 0) copy) s →
        ∀ x, h.Reaches Body.refs o x → s.1.Alive x ∧ s.1.object x = h.object x := by
  refine ⟨fun a b ha hb => ?_, equals_equivalence h, fun o ho halive => ?_⟩
  · obtain ⟨n, hn⟩ := ha.within
    obtain ⟨r, hr, -⟩ := xpcEqual_returns hn hb
    exact ⟨r, n, hr⟩
  · obtain ⟨n, hn⟩ := ho.within
    obtain ⟨h', copy, hcall, hcopied⟩ := xpcCopy_spec hbal hn
    refine ⟨n + 64, h', copy, hcall, ⟨n, hcopied.equal⟩, hcopied.apart, hcopied.same,
      fun s hrun x hx => ?_⟩
    exact (later_unchanged hbal hcopied.unchanged hrun).kept x (hn.alive hbal halive hx)

end

/-! ## A dictionary and a cycle -/

/-- The dictionary with one value is compared and copied. -/
theorem equal_and_copy_agree_sample : ∃ n h' copy,
    (∀ depth, n ≤ depth → xpcCopy depth (Heap.ofList sample) 1 = some (h', copy)) ∧
      Equals h' copy 1 := by
  have hvalue : Value (Heap.ofList sample) 2 :=
    .intro 2 ⟨1, false, .bool true⟩ rfl trivial fun _ hx => absurd hx List.not_mem_nil
  have hdict : Value (Heap.ofList sample) 1 := by
    refine .intro 1 _ sample_cell ⟨rfl, List.pairwise_singleton _ _⟩ fun x hx => ?_
    obtain rfl := List.mem_singleton.mp hx
    exact hvalue
  obtain ⟨n, h', copy, hcall, hequal, -⟩ :=
    (equal_and_copy_agree _ _ balanced_sample).2.2 1 hdict (by decide +kernel)
  exact ⟨n, h', copy, hcall, hequal⟩

/-- An array that holds itself. -/
def loop : List (ℕ × Cell Body) := [(1, ⟨2, false, .array ⟨[1], 4, 32⟩⟩)]

/-- It is not copied, however deep the calls may go. -/
lemma xpcCopy_loop (depth : ℕ) (h : Objects) (c : Cell Body) (hc : h.cell 1 = some c)
    (hbody : c.body = .array ⟨[1], 4, 32⟩) : xpcCopy depth h 1 = none := by
  induction depth generalizing h with
  | zero => rfl
  | succ depth ih =>
    have hcell : (xpcObjectAlloc h (.array ⟨[], 0, 0⟩)).1.cell 1 = some c := by
      refine (Heap.put_of_ne ?_).trans hc
      intro heq
      exact fresh_notMem h (heq ▸ h.mem_dom 1 (by simp [hc]))
    have hnone : xpcCopy depth (xpcObjectAlloc h (.array ⟨[], 0, 0⟩)).1 1 = none := ih _ hcell
    rw [xpcCopy, hc, Option.map_some, hbody]
    simp [copyElements, hnone]

/-- **An array that holds itself is not copied**: the calls have no end. -/
theorem not_copied_loop :
    ¬ ∀ (h : Objects) (owed : ℕ → ℕ) (o : ℕ), Balanced Body.refs h owed [] → h.Alive o →
      (∀ x, h.Reaches Body.refs o x → ∃ c, h.cell x = some c ∧ c.body.Plain) →
      ∃ depth h' copy, xpcCopy depth h o = some (h', copy) := by
  intro hall
  have hcell : (Heap.ofList loop).cell 1 = some ⟨2, false, .array ⟨[1], 4, 32⟩⟩ := rfl
  have hbal : Balanced Body.refs (Heap.ofList loop) (fun x => [1].count x) [] :=
    balanced_ofList (by decide +kernel) (by decide +kernel) (by decide +kernel)
  have hreach : ∀ x, (Heap.ofList loop).Reaches Body.refs 1 x → x = 1 := by
    intro x hx
    induction hx with
    | refl => rfl
    | tail _ hstep ih =>
      obtain ⟨p, hp, hmem⟩ := hstep
      subst ih
      obtain rfl := Option.some_inj.mp (show some _ = some p from hp)
      exact List.mem_singleton.mp hmem
  obtain ⟨depth, h', copy, hcall⟩ := hall _ _ 1 hbal (by decide +kernel) fun x hx => by
    rw [hreach x hx]
    exact ⟨_, hcell, by decide, .inr ⟨2, by decide, by decide, rfl, rfl⟩⟩
  rw [xpcCopy_loop depth _ _ hcell rfl] at hcall
  cases hcall

end Asteros.Xpc.Graph
