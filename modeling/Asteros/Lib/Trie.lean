import Mathlib.Data.List.Basic
import Mathlib.Tactic.Linarith

set_option autoImplicit false

/-!
# Tries with labels

A trie whose edges carry words, as they arise when the common prefixes of a set of words are
factored out. A node may have a value, which is that of the word on the way to it. Where the labels
of siblings start with different letters, the word decides the way, and looking it up finds the
value that is stored for it.

## Main definitions

* `LabelTrie` — tries with words `List κ` on their edges and values in `α`.
* `entries` — the words with their values.
* `find` — the lookup that follows the first label that is a prefix.

## Main results

* `find_eq_some_iff` — the lookup is exact.
-/

/-- A trie: the value of a node, and its children with their labels. -/
inductive LabelTrie (κ α : Type) where
  | node (value : Option α) (children : List (List κ × LabelTrie κ α))

namespace LabelTrie

variable {κ α : Type}

/-- **Induction over tries**: a property of every child of a node holds of the node. -/
lemma trieInduction {P : LabelTrie κ α → Prop}
    (node : ∀ value children, (∀ c ∈ children, P c.2) → P (.node value children))
    (t : LabelTrie κ α) : P t := by
  refine @LabelTrie.rec κ α P (fun children => ∀ c ∈ children, P c.2) (fun c => P c.2) node
    ?_ ?_ ?_ t
  · simp
  · intro c children hc hchildren d hd
    rcases List.mem_cons.mp hd with rfl | hd
    · exact hc
    · exact hchildren d hd
  · exact fun _ _ h => h

mutual
/-- The words with their values. -/
def entries : LabelTrie κ α → List (List κ × α)
  | .node value children => value.toList.map (fun a => ([], a)) ++ childEntries children

/-- The words below some children. -/
def childEntries : List (List κ × LabelTrie κ α) → List (List κ × α)
  | [] => []
  | (label, t) :: children =>
    (entries t).map (fun e => (label ++ e.1, e.2)) ++ childEntries children
end

mutual
/-- The labels of siblings are not empty and start with different letters. -/
def WellFormed : LabelTrie κ α → Prop
  | .node _ children =>
    (∀ c ∈ children, c.1 ≠ []) ∧ (children.map fun c => c.1.head?).Nodup ∧
      ChildrenWellFormed children

/-- So it is below some children. -/
def ChildrenWellFormed : List (List κ × LabelTrie κ α) → Prop
  | [] => True
  | (_, t) :: children => WellFormed t ∧ ChildrenWellFormed children
end

/-- The children, as a quantified statement. -/
lemma childrenWellFormed_iff (children : List (List κ × LabelTrie κ α)) :
    ChildrenWellFormed children ↔ ∀ c ∈ children, WellFormed c.2 := by
  induction children with
  | nil => simp [ChildrenWellFormed]
  | cons c children ih =>
    obtain ⟨label, t⟩ := c
    rw [ChildrenWellFormed, ih, List.forall_mem_cons]

/-- The words below some children go through one of them. -/
lemma mem_childEntries {children : List (List κ × LabelTrie κ α)} {e : List κ × α} :
    e ∈ childEntries children ↔ ∃ c ∈ children, ∃ w, (w, e.2) ∈ entries c.2 ∧ e.1 = c.1 ++ w := by
  induction children with
  | nil => simp [childEntries]
  | cons c children ih =>
    obtain ⟨label, t⟩ := c
    rw [childEntries, List.mem_append, ih, List.exists_mem_cons_iff]
    refine or_congr_left ?_
    rw [List.mem_map]
    constructor
    · rintro ⟨f, hf, rfl⟩
      exact ⟨f.1, hf, rfl⟩
    · rintro ⟨w, hw, he⟩
      exact ⟨(w, e.2), hw, Prod.ext he.symm rfl⟩

variable [DecidableEq κ]

mutual
/-- The lookup: at the end of the word the value of the node, before it the way along the first
label that is a prefix of what is left. -/
def find : LabelTrie κ α → List κ → Option α
  | .node value children, s => if s = [] then value else findChild children s

/-- The lookup among some children. -/
def findChild : List (List κ × LabelTrie κ α) → List κ → Option α
  | [], _ => none
  | (label, t) :: children, s =>
    if label.isPrefixOf s then find t (s.drop label.length) else findChild children s
end

/-- The lookup among children takes the first whose label is a prefix. -/
lemma findChild_append {before rest : List (List κ × LabelTrie κ α)} {label : List κ}
    {t : LabelTrie κ α} {s : List κ} (hbefore : ∀ c ∈ before, c.1.isPrefixOf s = false)
    (hlabel : label.isPrefixOf s = true) :
    findChild (before ++ (label, t) :: rest) s = find t (s.drop label.length) := by
  induction before with
  | nil => rw [List.nil_append, findChild, if_pos hlabel]
  | cons c before ih =>
    obtain ⟨label', t'⟩ := c
    rw [List.cons_append, findChild, hbefore _ List.mem_cons_self, if_neg Bool.false_ne_true]
    exact ih fun d hd => hbefore d (List.mem_cons_of_mem _ hd)

/-- Without a prefix among the labels nothing is found. -/
lemma findChild_none {children : List (List κ × LabelTrie κ α)} {s : List κ}
    (h : ∀ c ∈ children, c.1.isPrefixOf s = false) : findChild children s = none := by
  induction children with
  | nil => rfl
  | cons c children ih =>
    obtain ⟨label, t⟩ := c
    rw [findChild, h _ List.mem_cons_self, if_neg Bool.false_ne_true]
    exact ih fun d hd => h d (List.mem_cons_of_mem _ hd)

/-- A label that is not empty and a prefix of a word starts as the word does. -/
lemma head?_eq_of_isPrefixOf {label s : List κ} (hne : label ≠ [])
    (h : label.isPrefixOf s = true) : label.head? = s.head? := by
  obtain ⟨b, label, rfl⟩ := List.exists_cons_of_ne_nil hne
  obtain ⟨rest, rfl⟩ := List.isPrefixOf_iff_prefix.mp h
  rfl

/-- **The lookup is exact**: a value is found for a word exactly if it is stored for it.

**Proof sketch.** Induction over the trie. The labels that are prefixes of the word start as the
word does, so there is at most one of them among siblings, and the entries of the word are those
below it. -/
theorem find_eq_some_iff {t : LabelTrie κ α} (ht : t.WellFormed) {s : List κ} {a : α} :
    t.find s = some a ↔ (s, a) ∈ t.entries := by
  induction t using trieInduction generalizing s with
  | node value children ih =>
    obtain ⟨hne, hnodup, hchildren⟩ := ht
    rw [childrenWellFormed_iff] at hchildren
    have hvalue : (s, a) ∈ value.toList.map (fun a => (([] : List κ), a)) ↔
        s = [] ∧ value = some a := by
      cases value with
      | none => simp
      | some b => simp [eq_comm]
    rw [find, entries, List.mem_append, hvalue, mem_childEntries]
    by_cases hs : s = []
    · rw [if_pos hs]
      refine ⟨fun h => Or.inl ⟨hs, h⟩, ?_⟩
      rintro (⟨-, h⟩ | ⟨c, hc, w, -, hw⟩)
      · exact h
      · have hnil : c.1 ++ w = [] := hw.symm.trans hs
        exact absurd (List.append_eq_nil_iff.mp hnil).1 (hne c hc)
    · rw [if_neg hs]
      by_cases hprefix : ∃ c ∈ children, c.1.isPrefixOf s = true
      · obtain ⟨⟨label, t⟩, hc, hlabel⟩ := hprefix
        obtain ⟨before, rest, rfl⟩ := List.append_of_mem hc
        -- another label that is a prefix would start as this one
        have hother : ∀ d ∈ before ++ rest, d.1.isPrefixOf s = false := by
          intro d hd
          by_contra hpre
          have hdmem : d ∈ before ++ (label, t) :: rest := by
            rcases List.mem_append.mp hd with h | h
            · exact List.mem_append_left _ h
            · exact List.mem_append_right _ (List.mem_cons_of_mem _ h)
          have hheads : d.1.head? = label.head? :=
            (head?_eq_of_isPrefixOf (hne d hdmem) (by simpa using hpre)).trans
              (head?_eq_of_isPrefixOf (hne _ hc) hlabel).symm
          rw [List.map_append, List.map_cons] at hnodup
          have hmiddle := (List.perm_middle.nodup_iff.mp hnodup)
          refine (List.nodup_cons.mp hmiddle).1 ?_
          rw [← hheads, ← List.map_append]
          exact List.mem_map_of_mem (f := fun c : List κ × LabelTrie κ α => c.1.head?) hd
        rw [findChild_append (fun d hd => hother d (List.mem_append_left _ hd)) hlabel,
          ih _ hc (hchildren _ hc)]
        obtain ⟨w, rfl⟩ := List.isPrefixOf_iff_prefix.mp hlabel
        rw [List.drop_left]
        refine ⟨fun h => Or.inr ⟨(label, t), hc, w, h, rfl⟩, ?_⟩
        rintro (⟨h, -⟩ | ⟨d, hd, w', hw', heq⟩)
        · exact absurd h hs
        · rcases List.mem_append.mp hd with h | h
          · have hno := hother d (List.mem_append_left _ h)
            rw [show label ++ w = d.1 ++ w' from heq, List.isPrefixOf_iff_prefix.mpr (List.prefix_append _ _)] at hno
            cases hno
          · rcases List.mem_cons.mp h with rfl | h
            · rwa [List.append_cancel_left heq]
            · have hno := hother d (List.mem_append_right _ h)
              rw [show label ++ w = d.1 ++ w' from heq, List.isPrefixOf_iff_prefix.mpr (List.prefix_append _ _)] at hno
              cases hno
      · have hnone : ∀ c ∈ children, c.1.isPrefixOf s = false := fun c hc => by
          by_contra h
          exact hprefix ⟨c, hc, by simpa using h⟩
        rw [findChild_none hnone]
        refine ⟨fun h => absurd h (Option.some_ne_none a).symm, ?_⟩
        rintro (⟨h, -⟩ | ⟨c, hc, w, -, hw⟩)
        · exact absurd h hs
        · have hno := hnone c hc
          rw [show s = c.1 ++ w from hw,
            List.isPrefixOf_iff_prefix.mpr (List.prefix_append _ _)] at hno
          cases hno

end LabelTrie
