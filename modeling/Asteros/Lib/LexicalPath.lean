import Mathlib.Algebra.Ring.Nat
import Mathlib.Data.List.TakeWhile
import Mathlib.Data.List.Induction
import Mathlib.Tactic.Common
import Mathlib.Tactic.SplitIfs

set_option autoImplicit false

/-!
# Paths as texts

A path is a list of characters in which one character separates the components. A component that is
empty or a single dot stands for nothing, one of two dots for the step to the parent. A canonical
text of an absolute path has a separator in front of every name, and no other components; lists of
names are innermost first.

## Main definitions

* `components` — the components of a text that stand for something.
* `resolve` — the names that are left when the steps to a parent are made.
* `text`, `Canonical` — the canonical texts.

## Main results

* `components_text` — the components of a canonical text are its names.
* `text_injective` — a text has one list of components.
* `length_components_le` — the components of a text fit in it.
-/

namespace LexicalPath

variable {α : Type} (sep dot : α)

section Components

variable [DecidableEq α]

/-! ## Components -/

/-- The components of a text, without the empty ones and those of a single dot. -/
def components (s : List α) : List (List α) :=
  (s.splitOn sep).filter fun c => c ≠ [] ∧ c ≠ [dot]

/-- What stands on both sides of a separator. -/
lemma components_append_sep (s t : List α) :
    components sep dot (s ++ sep :: t) = components sep dot s ++ components sep dot t := by
  rw [components, List.splitOn_append_cons_self, List.filter_append, components, components]

/-- There is nothing in an empty text. -/
@[simp] lemma components_nil : components sep dot [] = [] := by
  simp [components]

/-- A separator in front. -/
@[simp] lemma components_sep (s : List α) :
    components sep dot (sep :: s) = components sep dot s := by
  simpa using components_append_sep sep dot [] s

/-- A text without a separator. -/
lemma components_of_not_mem {c : List α} (h : sep ∉ c) :
    components sep dot c = if c ≠ [] ∧ c ≠ [dot] then [c] else [] := by
  rw [components, List.splitOn_eq_singleton h, List.filter_cons, List.filter_nil]
  simp

/-- The separators in front are of no account. -/
lemma components_dropWhile (s : List α) :
    components sep dot (s.dropWhile (· = sep)) = components sep dot s := by
  induction s with
  | nil => rfl
  | cons a s ih =>
    rw [List.dropWhile_cons]
    split_ifs with h
    · rw [ih, of_decide_eq_true h, components_sep]
    · rfl

/-- The first component and those behind it. -/
lemma components_takeWhile (s : List α) : components sep dot s =
    components sep dot (s.takeWhile (· ≠ sep)) ++ components sep dot (s.dropWhile (· ≠ sep)) := by
  cases h : s.dropWhile (· ≠ sep) with
  | nil => rw [List.takeWhile_eq_self_iff.mpr (List.dropWhile_eq_nil_iff.mp h), components_nil,
      List.append_nil]
  | cons a t =>
    have ha : a = sep := by
      have hne := List.head_dropWhile_not (· ≠ sep) (l := s) (by rw [h]; exact List.cons_ne_nil a t)
      simpa only [h, List.head_cons, decide_eq_false_iff_not, not_not] using hne
    conv_lhs => rw [← List.takeWhile_append_dropWhile (p := (· ≠ sep)) (l := s), h, ha]
    rw [components_append_sep, ha, components_sep]

/-- There is no separator between separators. -/
lemma not_mem_of_mem_splitOn {s c : List α} (h : c ∈ s.splitOn sep) : sep ∉ c := by
  induction s generalizing c with
  | nil => simp_all
  | cons a s ih =>
    rw [List.splitOn_cons_eq_if_modifyHead] at h
    split_ifs at h with ha
    · rcases List.mem_cons.mp h with rfl | h
      · exact List.not_mem_nil
      · exact ih h
    · cases hs : s.splitOn sep with
      | nil => exact absurd hs (List.splitOn_ne_nil sep s)
      | cons d ds =>
        rw [hs, List.modifyHead_cons] at h
        rcases List.mem_cons.mp h with rfl | h
        · simp only [List.mem_cons, not_or]
          exact ⟨fun he => ha (beq_iff_eq.mpr he.symm), ih (hs ▸ List.mem_cons_self)⟩
        · exact ih (hs ▸ List.mem_cons_of_mem d h)

/-- What a component is. -/
lemma of_mem_components {s c : List α} (h : c ∈ components sep dot s) :
    c ≠ [] ∧ c ≠ [dot] ∧ sep ∉ c := by
  rw [components, List.mem_filter] at h
  have hc := of_decide_eq_true h.2
  exact ⟨hc.1, hc.2, not_mem_of_mem_splitOn sep h.1⟩

/-- What is between separators consists of characters of the text. -/
lemma subset_of_mem_splitOn {s c : List α} (h : c ∈ s.splitOn sep) : c ⊆ s := by
  induction s generalizing c with
  | nil => simp_all
  | cons a s ih =>
    rw [List.splitOn_cons_eq_if_modifyHead] at h
    split_ifs at h with ha
    · rcases List.mem_cons.mp h with rfl | h
      · exact List.nil_subset _
      · exact List.subset_cons_of_subset a (ih h)
    · cases hs : s.splitOn sep with
      | nil => exact absurd hs (List.splitOn_ne_nil sep s)
      | cons d ds =>
        rw [hs, List.modifyHead_cons] at h
        rcases List.mem_cons.mp h with rfl | h
        · exact List.cons_subset_cons a (ih (hs ▸ List.mem_cons_self))
        · exact List.subset_cons_of_subset a (ih (hs ▸ List.mem_cons_of_mem d h))

/-- A component consists of characters of the text. -/
lemma subset_of_mem_components {s c : List α} (h : c ∈ components sep dot s) : c ⊆ s :=
  subset_of_mem_splitOn sep (List.mem_filter.mp h).1

/-- The characters of the components, and one more for each. -/
def extent (cs : List (List α)) : ℕ := (cs.map fun c => c.length + 1).sum

omit [DecidableEq α] in
/-- The extent of two lists. -/
lemma extent_append (cs ds : List (List α)) : extent (cs ++ ds) = extent cs + extent ds := by
  simp [extent]

omit [DecidableEq α] in
/-- Leaving components out. -/
lemma extent_filter_le (p : List α → Bool) (cs : List (List α)) :
    extent (cs.filter p) ≤ extent cs := by
  induction cs with
  | nil => exact le_refl _
  | cons c cs ih =>
    rw [List.filter_cons]
    split_ifs
    · simp only [extent, List.map_cons, List.sum_cons] at ih ⊢
      omega
    · simp only [extent, List.map_cons, List.sum_cons] at ih ⊢
      omega

/-- **The components of a text fit in it**, with a separator between them. -/
lemma length_components_le (s : List α) : extent (components sep dot s) ≤ s.length + 1 := by
  have hsplit : extent (s.splitOn sep) = s.length + 1 := by
    induction s with
    | nil => simp [extent]
    | cons a s ih =>
      rw [List.splitOn_cons_eq_if_modifyHead]
      split_ifs
      · simp only [extent, List.map_cons, List.sum_cons, List.length_nil, List.length_cons] at ih ⊢
        omega
      · cases hs : s.splitOn sep with
        | nil => exact absurd hs (List.splitOn_ne_nil sep s)
        | cons d ds =>
          rw [hs] at ih
          simp only [extent, List.modifyHead_cons, List.map_cons, List.sum_cons,
            List.length_cons] at ih ⊢
          omega
  rw [← hsplit]
  exact extent_filter_le _ _

/-! ## Resolving -/

/-- The effect of a component: a step to the parent, which the root does not have, or to a name. -/
def enter (names : List (List α)) (c : List α) : List (List α) :=
  if c = [dot, dot] then names.tail else c :: names

/-- The names that the components lead to, innermost first. -/
def resolve (cs : List (List α)) : List (List α) := cs.foldl (enter dot) []

/-- Without a step to a parent, all the names are left. -/
lemma foldl_enter {cs : List (List α)} (h : [dot, dot] ∉ cs) (names : List (List α)) :
    cs.foldl (enter dot) names = cs.reverse ++ names := by
  induction cs generalizing names with
  | nil => rfl
  | cons c cs ih =>
    rw [List.mem_cons, not_or] at h
    rw [List.foldl_cons, enter, if_neg (Ne.symm h.1), ih h.2, List.reverse_cons, List.append_assoc,
      List.singleton_append]

end Components

/-! ## Canonical texts -/

/-- The text of a list of components, with a separator in front of each. -/
def body : List (List α) → List α
  | [] => []
  | c :: names => body names ++ sep :: c

/-- The text of an absolute path. -/
def text (names : List (List α)) : List α := if names = [] then [sep] else body sep names

/-- A component that is a name. -/
def IsName (c : List α) : Prop := c ≠ [] ∧ sep ∉ c ∧ c ≠ [dot] ∧ c ≠ [dot, dot]

/-- A text that begins with the separator, has no empty components and none of dots, and does not
end with the separator, unless it is all of the text. -/
def Canonical (s : List α) : Prop := ∃ names, (∀ c ∈ names, IsName sep dot c) ∧ s = text sep names

/-- The root. -/
@[simp] lemma text_nil : text sep [] = [sep] := rfl

/-- The text of a component and those above it. -/
@[simp] lemma text_cons (c : List α) (names : List (List α)) :
    text sep (c :: names) = body sep names ++ sep :: c := by
  simp [text, body]

/-- Its length. -/
@[simp] lemma length_body (names : List (List α)) :
    (body sep names).length = extent names := by
  induction names with
  | nil => rfl
  | cons c names ih =>
    simp only [body, extent, List.length_append, List.length_cons, List.map_cons,
      List.sum_cons] at ih ⊢
    omega

/-- The characters of such a text. -/
lemma mem_body {a : α} {names : List (List α)} (h : a ∈ body sep names) :
    a = sep ∨ ∃ c ∈ names, a ∈ c := by
  induction names with
  | nil => exact absurd h List.not_mem_nil
  | cons c names ih =>
    rcases List.mem_append.mp h with h | h
    · rcases ih h with rfl | ⟨d, hd, ha⟩
      · exact .inl rfl
      · exact .inr ⟨d, List.mem_cons_of_mem c hd, ha⟩
    · rcases List.mem_cons.mp h with rfl | h
      · exact .inl rfl
      · exact .inr ⟨c, List.mem_cons_self, h⟩

/-- The characters of the text of an absolute path. -/
lemma mem_text {a : α} {names : List (List α)} (h : a ∈ text sep names) :
    a = sep ∨ ∃ c ∈ names, a ∈ c := by
  unfold text at h
  split_ifs at h
  · exact .inl (List.mem_singleton.mp h)
  · exact mem_body sep h

/-- It begins with a separator. -/
lemma head?_text (names : List (List α)) : (text sep names).head? = some sep := by
  cases names with
  | nil => rfl
  | cons c names =>
    induction names generalizing c with
    | nil => rfl
    | cons d names ih =>
      have hd := ih d
      rw [text_cons] at hd
      rw [text_cons, body, List.head?_append, hd]
      rfl

/-- The length of the text of an absolute path. -/
lemma length_text (names : List (List α)) :
    (text sep names).length = if names = [] then 1 else extent names := by
  rw [text]
  split_ifs
  · rfl
  · exact length_body sep names

/-- The components of such a text. -/
lemma components_body [DecidableEq α] {names : List (List α)} (h : ∀ c ∈ names, IsName sep dot c) :
    components sep dot (body sep names) = names.reverse := by
  induction names with
  | nil => simp [body]
  | cons c names ih =>
    have hc := h c List.mem_cons_self
    rw [body, components_append_sep, ih fun d hd => h d (List.mem_cons_of_mem c hd),
      components_of_not_mem sep dot hc.2.1, if_pos ⟨hc.1, hc.2.2.1⟩, List.reverse_cons]

/-- **The components of a canonical text** are its names. -/
lemma components_text [DecidableEq α] {names : List (List α)} (h : ∀ c ∈ names, IsName sep dot c) :
    components sep dot (text sep names) = names.reverse := by
  rw [text]
  split_ifs with hnil
  · simp [hnil]
  · exact components_body sep dot h

/-- The last separator of a text divides it in one way. -/
lemma append_sep_injective {s t c d : List α} (hc : sep ∉ c) (hd : sep ∉ d)
    (h : s ++ sep :: c = t ++ sep :: d) : s = t ∧ c = d := by
  rcases List.append_eq_append_iff.mp h with ⟨u, rfl, hu⟩ | ⟨u, rfl, hu⟩
  · cases u with
    | nil => simpa using hu
    | cons a u =>
      rw [List.cons_append, List.cons.injEq] at hu
      exact absurd (hu.2 ▸ List.mem_append_right u List.mem_cons_self) hc
  · cases u with
    | nil => simpa using hu.symm
    | cons a u =>
      rw [List.cons_append, List.cons.injEq] at hu
      exact absurd (hu.2 ▸ List.mem_append_right u List.mem_cons_self) hd

/-- A text has one list of components. -/
lemma body_injective {cs ds : List (List α)} (hcs : ∀ c ∈ cs, sep ∉ c) (hds : ∀ d ∈ ds, sep ∉ d)
    (h : body sep cs = body sep ds) : cs = ds := by
  induction cs generalizing ds with
  | nil =>
    cases ds with
    | nil => rfl
    | cons d ds => simp [body] at h
  | cons c cs ih =>
    cases ds with
    | nil => simp [body] at h
    | cons d ds =>
      obtain ⟨hbody, rfl⟩ := append_sep_injective sep (hcs c List.mem_cons_self)
        (hds d List.mem_cons_self) h
      rw [ih (fun e he => hcs e (List.mem_cons_of_mem c he))
        (fun e he => hds e (List.mem_cons_of_mem c he)) hbody]

/-- **A text has one list of components**, if the outermost is not empty. -/
lemma text_injective {cs ds : List (List α)} (hcs : ∀ c ∈ cs, sep ∉ c) (hds : ∀ d ∈ ds, sep ∉ d)
    (hc : cs.getLast? ≠ some []) (hd : ds.getLast? ≠ some []) (h : text sep cs = text sep ds) :
    cs = ds := by
  have hroot : ∀ {es : List (List α)}, (∀ e ∈ es, sep ∉ e) → es.getLast? ≠ some [] →
      body sep es ≠ [sep] := by
    intro es hes hlast he
    have hone : es = [[]] := body_injective sep hes (by simp) (by simpa [body] using he)
    exact hlast (by rw [hone]; rfl)
  rw [text, text] at h
  split_ifs at h with hcs' hds' hds'
  · rw [hcs', hds']
  · exact absurd h.symm (hroot hds hd)
  · exact absurd h (hroot hcs hc)
  · exact body_injective sep hcs hds h

end LexicalPath
