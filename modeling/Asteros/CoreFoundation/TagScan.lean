import Asteros.CoreFoundation.PropertyListDocument
import Mathlib.Algebra.BigOperators.Group.List.Basic

set_option autoImplicit false

/-!
# The tags of a document

Both the reader and a person see a document as a sequence of tags with text between them. `tags`
lists the tags of a byte list, whatever they are; a byte list is closed if it ends between tags,
so that the tags of what follows can be listed on their own. The reader takes an opening tag for
the start of an element and a closing tag for the end of one, so in the image of an element the
two are in balance, and every tag is one the reader knows.

## Main definitions

* `tags` — the tags of a byte list.
* `Closed` — a byte list with its tags, ending between tags.
* `Known`, `PlistClose` — the tags inside an accepted root element, and the tag that ends it.
* `balance` — opening tags minus closing tags.

## Main results

* `Element.balanced` — the tags of an element are known and balanced.
-/

namespace Asteros.CoreFoundation

open Asteros.Libc

/-- The tags from here on: what stands between a `<` and the next `>`. Inside a tag, the part
read so far is given. -/
def tagsFrom : Option (List UInt8) → List UInt8 → List (List UInt8)
  | none, [] => []
  | none, b :: c => if b = byte '<' then tagsFrom (some []) c else tagsFrom none c
  | some t, [] => [t]
  | some t, b :: c => if b = byte '>' then t :: tagsFrom none c else tagsFrom (some (t ++ [b])) c

/-- The tags of a byte list. -/
def tags (s : List UInt8) : List (List UInt8) := tagsFrom none s

/-- The byte list has the given tags and ends between tags. -/
def Closed (s : List UInt8) (ts : List (List UInt8)) : Prop := ∀ c, tags (s ++ c) = ts ++ tags c

/-- Nothing has no tags. -/
lemma closed_nil : Closed [] [] := fun _ => rfl

/-- The tags of two closed byte lists, one after the other. -/
lemma Closed.append {s s' : List UInt8} {ts ts' : List (List UInt8)} (h : Closed s ts)
    (h' : Closed s' ts') : Closed (s ++ s') (ts ++ ts') := fun c => by
  rw [List.append_assoc, h, h', List.append_assoc]

/-- A closed byte list has one list of tags. -/
lemma Closed.tags_eq {s : List UInt8} {ts : List (List UInt8)} (h : Closed s ts) : tags s = ts := by
  have := h []
  rwa [List.append_nil, show tags [] = [] from rfl, List.append_nil] at this

/-- A text without `<` has no tags. -/
lemma closed_text {s : List UInt8} (h : byte '<' ∉ s) : Closed s [] := by
  induction s with
  | nil => exact closed_nil
  | cons b s ih =>
    rw [List.mem_cons, not_or] at h
    intro c
    rw [List.cons_append, tags, tagsFrom, if_neg (Ne.symm h.1)]
    exact ih h.2 c

/-- Whitespace has no tags. -/
lemma closed_blank {s : List UInt8} (h : Blank s) : Closed s [] :=
  closed_text fun hmem => absurd (h _ hmem) (by decide)

/-- The inside of a tag is read up to the `>`. -/
private lemma tagsFrom_inside (t : List UInt8) {s : List UInt8} (h : byte '>' ∉ s)
    (c : List UInt8) : tagsFrom (some t) (s ++ byte '>' :: c) = (t ++ s) :: tags c := by
  induction s generalizing t with
  | nil => simp [tagsFrom, tags]
  | cons b s ih =>
    rw [List.mem_cons, not_or] at h
    rw [List.cons_append, tagsFrom, if_neg (Ne.symm h.1), ih _ h.2, List.append_assoc,
      List.singleton_append]

/-- A tag is one tag. -/
lemma closed_tag {s : List UInt8} (h : byte '>' ∉ s) :
    Closed (byte '<' :: s ++ [byte '>']) [s] := fun c => by
  have hcat : byte '<' :: s ++ [byte '>'] ++ c = byte '<' :: (s ++ byte '>' :: c) := by simp
  rw [hcat, tags, tagsFrom, if_pos rfl, tagsFrom_inside [] h, List.nil_append]
  rfl

/-- A tag goes up to its `>`, if there is one. -/
lemma exists_tagsFrom (t c : List UInt8) :
    ∃ ts, tagsFrom (some t) c = (t ++ c.takeWhile (· != byte '>')) :: ts := by
  induction c generalizing t with
  | nil => exact ⟨[], by simp [tagsFrom]⟩
  | cons b c ih =>
    rw [tagsFrom]
    split_ifs with hb
    · exact ⟨tags c, by simp [hb, tags]⟩
    · obtain ⟨ts, hts⟩ := ih (t ++ [b])
      exact ⟨ts, by rw [hts, List.takeWhile_cons_of_pos (by simpa using hb), List.append_assoc,
        List.singleton_append]⟩

/-- What starts with a `<` has a first tag. -/
lemma exists_tags (c : List UInt8) :
    ∃ ts, tags (byte '<' :: c) = c.takeWhile (· != byte '>') :: ts := by
  obtain ⟨ts, hts⟩ := exists_tagsFrom [] c
  exact ⟨ts, by rw [tags, tagsFrom, if_pos rfl, hts, List.nil_append]⟩

/-- The image of a valid open tag. -/
lemma OpenTag.Valid.closed {t : OpenTag} (ht : t.Valid) : Closed t.bytes [t.name ++ t.rest] := by
  refine closed_tag fun hmem => ?_
  rcases List.mem_append.mp hmem with h | h
  · exact absurd (ht.name _ h) (by decide)
  · exact ht.rest h

/-- The image of a valid close tag. -/
lemma CloseTag.Valid.closed {t : CloseTag} (ht : t.Valid) {name : List UInt8}
    (hname : byte '>' ∉ name) :
    Closed (t.bytes name) [byte '/' :: (name ++ t.trail)] := by
  have hnot : byte '>' ∉ byte '/' :: (name ++ t.trail) := by
    intro hmem
    rcases List.mem_cons.mp hmem with h | h
    · exact absurd h (by decide)
    · rcases List.mem_append.mp h with h | h
      · exact hname h
      · exact absurd (ht.trail _ h) (by decide)
  have hcat : t.bytes name =
      t.lead ++ (byte '<' :: (byte '/' :: (name ++ t.trail)) ++ [byte '>']) := by
    simp [CloseTag.bytes, ascii, byte]
  rw [hcat]
  exact (closed_blank ht.lead).append (closed_tag hnot)

/-! ## Balance -/

/-- The name that the reader finds in an opening tag. -/
def tagName (t : List UInt8) : List UInt8 := (CString.ofBytes (t.takeWhile isNameChar)).bytes

/-- The elements with a closing tag. -/
def closableNames : List (List UInt8) :=
  [ascii "dict", ascii "array", ascii "string", ascii "integer", ascii "real", ascii "data",
    ascii "key"]

/-- A closing tag with the given name. -/
def IsClose (name t : List UInt8) : Prop := ∃ trail, Blank trail ∧ t = byte '/' :: (name ++ trail)

/-- A tag that the reader takes inside the root element. -/
def Known (t : List UInt8) : Prop :=
  (∃ name ∈ closableNames, IsClose name t) ∨
    tagName t ∈ closableNames ++ [ascii "true", ascii "false"]

/-- The tag that closes the document. -/
def PlistClose (t : List UInt8) : Prop := IsClose (ascii "plist") t

/-- What a tag adds to the depth: nothing for a Boolean, one for another opening tag. -/
def weight (t : List UInt8) : ℤ :=
  if t.head? = some (byte '/') then -1
  else if tagName t = ascii "true" ∨ tagName t = ascii "false" then 0
  else 1

/-- The opening tags minus the closing tags. -/
def balance (ts : List (List UInt8)) : ℤ := (ts.map weight).sum

/-- The balance of two lists of tags. -/
@[simp] lemma balance_append (ts ts' : List (List UInt8)) :
    balance (ts ++ ts') = balance ts + balance ts' := by
  simp [balance]

/-- The balance of one tag. -/
@[simp] lemma balance_singleton (t : List UInt8) : balance [t] = weight t := by
  simp [balance]

/-- The balance of no tag. -/
@[simp] lemma balance_nil : balance [] = 0 := rfl

/-- A closing tag closes one element. -/
lemma IsClose.weight {name t : List UInt8} (h : IsClose name t) : weight t = -1 := by
  obtain ⟨trail, -, rfl⟩ := h
  simp [CoreFoundation.weight]

/-- A tag with a name does not start with a slash. -/
lemma head_ne_slash {t : List UInt8} (h : tagName t ≠ []) : t.head? ≠ some (byte '/') := by
  cases t with
  | nil => simp
  | cons b t =>
    rintro heq
    obtain rfl : b = byte '/' := Option.some.inj heq
    exact h (by simp [tagName, isNameChar, CString.ofBytes])

/-- A closing tag continues with the first character of its name. -/
lemma IsClose.head {b : UInt8} {n t : List UInt8} (h : IsClose (b :: n) t) :
    t.tail.head? = some b := by
  obtain ⟨trail, -, rfl⟩ := h
  rfl

/-- A closing tag has no name of its own. -/
lemma IsClose.tagName {name t : List UInt8} (h : IsClose name t) : tagName t = [] := by
  obtain ⟨trail, -, rfl⟩ := h
  simp [CoreFoundation.tagName, isNameChar, CString.ofBytes]

/-- A closing tag that the reader takes does not start with another character. -/
lemma IsClose.not_known {b : UInt8} {n t : List UInt8} (h : IsClose (b :: n) t)
    (hb : ∀ name ∈ closableNames, name.head? ≠ some b) : ¬Known t := by
  rintro (⟨name, hname, h'⟩ | hname)
  · cases name with
    | nil => exact absurd hname (by decide)
    | cons b' n' =>
      have heq : b' = b := Option.some.inj (h'.head.symm.trans h.head)
      exact hb _ hname (by rw [heq]; rfl)
  · rw [h.tagName] at hname
    exact absurd hname (by decide)

/-- The names of closing tags are not `plist`. -/
lemma Known.not_plistClose {t : List UInt8} (h : Known t) : ¬PlistClose t := fun hp =>
  IsClose.not_known (show IsClose (byte 'p' :: ascii "list") t from hp) (by decide) h

/-- The name of a valid tag. -/
lemma OpenTag.Valid.tagName {t : OpenTag} (ht : t.Valid) :
    tagName (t.name ++ t.rest) = (CString.ofBytes t.name).bytes := by
  rw [CoreFoundation.tagName, (takeWhile_run ht.name ht.delimited).1]

/-- A tag with the name of an element with text or children is known and opens one. -/
lemma opens_of_tagName {t name : List UInt8} (h : tagName t = name)
    (hname : name ∈ closableNames) : Known t ∧ weight t = 1 := by
  refine ⟨Or.inr (by rw [h]; exact List.mem_append_left _ hname), ?_⟩
  have hne : tagName t ≠ [] := by
    rw [h]
    rintro rfl
    exact absurd hname (by decide)
  have hbool : ¬(name = ascii "true" ∨ name = ascii "false") := by
    rintro (rfl | rfl)
    · exact absurd hname (by decide)
    · exact absurd hname (by decide)
  rw [weight, if_neg (head_ne_slash hne), h, if_neg hbool]

/-- The tag of a Boolean is known and opens nothing. -/
lemma boolean_of_tagName {t : List UInt8} {b : Bool}
    (h : tagName t = if b then ascii "true" else ascii "false") : Known t ∧ weight t = 0 := by
  have hbool : tagName t = ascii "true" ∨ tagName t = ascii "false" := by
    rw [h]
    cases b
    · exact Or.inr rfl
    · exact Or.inl rfl
  have hne : tagName t ≠ [] := by
    rcases hbool with h | h <;> rw [h] <;> decide
  refine ⟨Or.inr ?_, by rw [weight, if_neg (head_ne_slash hne), if_pos hbool]⟩
  rcases hbool with h | h
  · rw [h]; decide
  · rw [h]; decide

/-- A named tag of an element with text or children is known and opens one element. -/
lemma OpenTag.Valid.opens {t : OpenTag} (ht : t.Valid) {name : List UInt8} (hn : t.Named name)
    (hname : name ∈ closableNames) :
    Known (t.name ++ t.rest) ∧ weight (t.name ++ t.rest) = 1 :=
  opens_of_tagName (by rw [ht.tagName]; exact hn) hname

/-- A valid closing tag of such an element is known and closes one. -/
lemma IsClose.closes {name t : List UInt8} (h : IsClose name t) (hname : name ∈ closableNames) :
    Known t ∧ CoreFoundation.weight t = -1 :=
  ⟨Or.inl ⟨name, hname, h⟩, h.weight⟩

/-- A closed byte list of known tags in balance. -/
def Balanced (s : List UInt8) : Prop :=
  ∃ ts, Closed s ts ∧ (∀ t ∈ ts, Known t) ∧ balance ts = 0

/-- Nothing is balanced. -/
lemma balanced_nil : Balanced [] := ⟨[], closed_nil, by simp, rfl⟩

/-- Two balanced byte lists, one after the other. -/
lemma Balanced.append {s s' : List UInt8} (h : Balanced s) (h' : Balanced s') :
    Balanced (s ++ s') := by
  obtain ⟨ts, hc, hk, hb⟩ := h
  obtain ⟨ts', hc', hk', hb'⟩ := h'
  refine ⟨ts ++ ts', hc.append hc', fun t ht => ?_, by rw [balance_append, hb, hb', add_zero]⟩
  rcases List.mem_append.mp ht with ht | ht
  · exact hk t ht
  · exact hk' t ht

/-- A balanced byte list between the tags of an element. -/
lemma Balanced.between {lead s : List UInt8} (hlead : Blank lead) {t : OpenTag} (ht : t.Valid)
    {name : List UInt8} (hn : t.Named name) (hname : name ∈ closableNames) (hs : Balanced s)
    {close : CloseTag} (hclose : close.Valid) :
    Balanced (lead ++ t.bytes ++ (s ++ close.bytes name)) := by
  obtain ⟨ts, hc, hk, hb⟩ := hs
  have hgt : byte '>' ∉ name := by
    simp only [closableNames, List.mem_cons, List.not_mem_nil, or_false] at hname
    rcases hname with rfl | rfl | rfl | rfl | rfl | rfl | rfl
    all_goals decide
  obtain ⟨hopen, hwopen⟩ := ht.opens hn hname
  have hisClose : IsClose name (byte '/' :: (name ++ close.trail)) := ⟨_, hclose.trail, rfl⟩
  obtain ⟨hcl, hwcl⟩ := hisClose.closes hname
  refine ⟨[] ++ [t.name ++ t.rest] ++ (ts ++ [byte '/' :: (name ++ close.trail)]),
    ((closed_blank hlead).append ht.closed).append (hc.append (hclose.closed hgt)), ?_, ?_⟩
  · intro x hx
    simp only [List.nil_append, List.mem_append, List.mem_singleton] at hx
    rcases hx with rfl | hx | rfl
    · exact hopen
    · exact hk x hx
    · exact hcl
  · simp only [balance_append, balance_nil, balance_singleton, hwopen, hwcl, hb]
    decide

/-- A text is balanced. -/
lemma balanced_text {s : List UInt8} (h : byte '<' ∉ s) : Balanced s :=
  ⟨[], closed_text h, by simp, rfl⟩

/-- **The tags of a valid element are known and balanced.**

**Proof sketch.** Induction over the element: its own tags open and close one, and what is
between them is balanced; a Boolean has one tag of weight zero. -/
lemma Element.balanced {e : Element} (he : e.Valid) : Balanced e.bytes := by
  induction e using Element.induct with
  | boolean lead tag b =>
    obtain ⟨hlead, ht, hn⟩ := he
    obtain ⟨hknown, hweight⟩ := boolean_of_tagName (b := b)
      (show tagName (tag.name ++ tag.rest) = _ by rw [ht.tagName]; exact hn)
    refine ⟨[] ++ [tag.name ++ tag.rest], (closed_blank hlead).append ht.closed, ?_, ?_⟩
    · intro x hx
      obtain rfl : x = tag.name ++ tag.rest := by simpa using hx
      exact hknown
    · rw [List.nil_append, balance_singleton, hweight]
  | text kind lead tag raw trail =>
    obtain ⟨hlead, ht, hn, hraw, htrail⟩ := he
    exact (balanced_text hraw).between hlead ht hn (by cases kind <;> decide)
      (CloseTag.valid_ofText htrail)
  | array lead tag items close ih =>
    obtain ⟨hlead, ht, hn, hitems, hclose⟩ := he
    have hbody : Balanced (bytesItems items) := by
      induction items with
      | nil => exact balanced_nil
      | cons e items ih' =>
        obtain ⟨he, hes⟩ := hitems
        exact (ih e List.mem_cons_self he).append
          (ih' (fun x hx => ih x (List.mem_cons_of_mem _ hx)) hes)
    exact hbody.between hlead ht hn (by decide) hclose
  | dict lead tag entries close ih =>
    obtain ⟨hlead, ht, hn, hentries, hclose⟩ := he
    have hbody : Balanced (bytesEntries entries) := by
      induction entries with
      | nil => exact balanced_nil
      | cons e entries ih' =>
        obtain ⟨k, e⟩ := e
        obtain ⟨hk, he, hes⟩ := hentries
        have hkey : Balanced k.bytes := (balanced_text hk.raw).between hk.lead hk.tag hk.named
          (by decide) (CloseTag.valid_ofText hk.trail)
        exact (hkey.append (ih (k, e) List.mem_cons_self he)).append
          (ih' (fun x hx => ih x (List.mem_cons_of_mem _ hx)) hes)
    exact hbody.between hlead ht hn (by decide) hclose

end Asteros.CoreFoundation
