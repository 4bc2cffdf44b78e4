import Asteros.CoreFoundation.XmlTree

set_option autoImplicit false

/-!
# Self-closing elements

The reader recognises a self-closing tag and then ignores that it is one, so an empty element in
that form swallows what follows it. Replacing an empty element by its self-closing form therefore
changes the result for every document that the reader accepts for its own sake. It changes
nothing for the others: those that are rejected for another reason, and those whose prolog
already holds, for the reader, a document of its own.

The result is read off the tags of the document, not off a run of the reader: accepted documents
have known tags in balance between `<plist>` and `</plist>`, and by `Node.tracks` that is so only
in a plain tree.

## Main definitions

* `XmlDocument` — documents; `XmlDocument.Plain`, those accepted for their own sake.
* `returned` — what `CFPropertyListCreateFromXMLData` returns.

## Main results

* `selfClosing_iff` — the replacement changes nothing exactly in documents that are not plain.
-/

namespace Asteros.CoreFoundation

open Asteros.Libc

/-! ## Documents -/

/-- A directive of the prolog as XML sees it: it may have a `>` inside. -/
structure Directive.WellFormed (p : Directive) : Prop where
  lead : Blank p.lead
  mark : p.mark = byte '?' ∨ p.mark = byte '!'

/-- A document: a byte order mark, the prolog, the `<plist>` tag with its attributes, the value,
and what follows it. -/
structure XmlDocument where
  mark : List UInt8
  prolog : List Directive
  lead : List UInt8
  attrs : List UInt8
  root : Node
  inner : Stretch
  trail : List UInt8
  tail : List UInt8

namespace XmlDocument

/-- The bytes before the `<plist>` tag. -/
def head (d : XmlDocument) : List UInt8 :=
  d.mark ++ d.prolog.flatMap Directive.bytes ++ d.lead

/-- The bytes of a document. -/
def bytes (d : XmlDocument) : List UInt8 :=
  d.head ++ (byte '<' :: (ascii "plist" ++ d.attrs) ++ [byte '>'] ++ (d.root.bytes ++
    d.inner.bytes ++ ((CloseTag.ofText d.trail).bytes (ascii "plist") ++ d.tail)))

/-- The parts of a document are what they have to be. -/
structure WellFormed (d : XmlDocument) : Prop where
  mark : byte '<' ∉ d.mark
  prolog : ∀ p ∈ d.prolog, p.WellFormed
  lead : Blank d.lead
  lt : byte '<' ∉ d.attrs
  delimited : ∀ b ∈ d.attrs.head?, isWs b = true
  root : d.root.WellFormed
  inner : d.inner.IsGap
  trail : Blank d.trail

/-- Before the `<plist>` tag there are only whitespace and directives, each up to its first `>`;
the tag has no other `>` and no carriage return after its name; and the value is plain. -/
structure Plain (d : XmlDocument) : Prop where
  head : ∃ (prolog : List Directive) (lead : List UInt8), (∀ p ∈ prolog, p.Valid) ∧ Blank lead ∧
    d.head = prolog.flatMap Directive.bytes ++ lead
  attrs : PlainAttrs d.attrs
  gt : byte '>' ∉ d.attrs
  root : d.root.Plain
  inner : d.inner.markup = none

/-- One empty element of the document is replaced by its self-closing form. -/
def Shortens (d d' : XmlDocument) : Prop :=
  ∃ n, d.root.Shortens n ∧ d' = { d with root := n }

/-- A shortened document is well-formed. -/
lemma Shortens.wellFormed {d d' : XmlDocument} (h : d.Shortens d') (hd : d.WellFormed) :
    d'.WellFormed := by
  obtain ⟨n, hn, rfl⟩ := h
  exact { hd with root := hn.wellFormed hd.root }

/-- A shortened document is not plain. -/
lemma Shortens.not_plain {d d' : XmlDocument} (h : d.Shortens d') : ¬d'.Plain := by
  obtain ⟨n, hn, rfl⟩ := h
  exact fun hp => hn.not_plain hp.root

/-- Shortening changes nothing before the `<plist>` tag. -/
lemma Shortens.head_eq {d d' : XmlDocument} (h : d.Shortens d') : d'.head = d.head := by
  obtain ⟨n, -, rfl⟩ := h
  rfl

end XmlDocument

/-! ## Tags of the whole document -/

/-- Whatever ends in `>` ends between tags. -/
lemma exists_closed_gt (s : List UInt8) : ∃ T, Closed (s ++ [byte '>']) T := by
  have hfrom : ∀ (s : List UInt8) (t : Option (List UInt8)),
      ∃ T, ∀ c, tagsFrom t (s ++ byte '>' :: c) = T ++ tags c := by
    intro s
    induction s with
    | nil =>
      intro t
      cases t with
      | none => exact ⟨[], fun c => rfl⟩
      | some t => exact ⟨[t], fun c => rfl⟩
    | cons b s ih =>
      intro t
      cases t with
      | none =>
        obtain ⟨T, hT⟩ := ih (if b = byte '<' then some [] else none)
        refine ⟨T, fun c => ?_⟩
        rw [← hT c, List.cons_append, tagsFrom]
        split_ifs <;> rfl
      | some t =>
        by_cases hb : b = byte '>'
        · obtain ⟨T, hT⟩ := ih none
          exact ⟨t :: T, fun c => by rw [List.cons_append, tagsFrom, if_pos hb, hT, List.cons_append]⟩
        · obtain ⟨T, hT⟩ := ih (some (t ++ [b]))
          exact ⟨T, fun c => by rw [List.cons_append, tagsFrom, if_neg hb, hT]⟩
  obtain ⟨T, hT⟩ := hfrom s none
  exact ⟨T, fun c => by rw [List.append_assoc]; exact hT c⟩

/-- What is before the `<plist>` tag ends between tags. -/
lemma XmlDocument.WellFormed.exists_closed_head {d : XmlDocument} (hd : d.WellFormed) :
    ∃ T, Closed d.head T := by
  have hprolog : ∀ ps : List Directive, ∃ T, Closed (ps.flatMap Directive.bytes) T := by
    intro ps
    induction ps with
    | nil => exact ⟨[], closed_nil⟩
    | cons p ps ih =>
      obtain ⟨T, hT⟩ := exists_closed_gt (p.lead ++ byte '<' :: p.mark :: p.body)
      obtain ⟨T', hT'⟩ := ih
      exact ⟨T ++ T', hT.append hT'⟩
  obtain ⟨T, hT⟩ := hprolog d.prolog
  exact ⟨[] ++ T ++ [], ((closed_text hd.mark).append hT).append (closed_blank hd.lead)⟩

/-- The tags of directives that end at their first `>`. -/
lemma closed_directives {prolog : List Directive} (h : ∀ p ∈ prolog, p.Valid)
    {lead : List UInt8} (hlead : Blank lead) : ∃ T,
    Closed (prolog.flatMap Directive.bytes ++ lead) T ∧ ∀ t ∈ T, t.head? ≠ some (byte 'p') := by
  induction prolog with
  | nil => exact ⟨[], closed_blank hlead, by simp⟩
  | cons p prolog ih =>
    obtain ⟨T, hT, hhead⟩ := ih fun q hq => h q (List.mem_cons_of_mem _ hq)
    obtain ⟨hplead, hmark, hbody⟩ := h p List.mem_cons_self
    have hgt : byte '>' ∉ p.mark :: p.body := by
      rw [List.mem_cons, not_or]
      refine ⟨fun heq => ?_, hbody⟩
      rcases hmark with hm | hm <;> rw [hm] at heq <;> exact absurd heq (by decide)
    have hp : Closed p.bytes ([] ++ [p.mark :: p.body]) := by
      have hcat : p.bytes = p.lead ++ (byte '<' :: (p.mark :: p.body) ++ [byte '>']) := by
        simp [Directive.bytes]
      rw [hcat]
      exact (closed_blank hplead).append (closed_tag hgt)
    refine ⟨[] ++ [p.mark :: p.body] ++ T, ?_, ?_⟩
    · rw [List.flatMap_cons, List.append_assoc]
      exact hp.append hT
    · intro t ht
      rcases List.mem_append.mp ht with ht | ht
      · obtain rfl : t = p.mark :: p.body := by simpa using ht
        rcases hmark with hm | hm <;> simp [hm, byte]
      · exact hhead t ht

/-- A closed byte list with no more tags than another ends no later, if a tag follows the
other. -/
lemma Closed.prefix_of_le {s s' c c' : List UInt8} {T T' : List (List UInt8)} (hs : Closed s T)
    (hs' : Closed s' T') (heq : s ++ c = s' ++ byte '<' :: c') (hle : T.length ≤ T'.length) :
    ∃ a, s' = s ++ a := by
  rcases List.append_eq_append_iff.mp heq with ⟨a, rfl, -⟩ | ⟨a, rfl, hc⟩
  · exact ⟨a, rfl⟩
  · cases a with
    | nil => exact ⟨[], by simp⟩
    | cons b a =>
      obtain rfl : b = byte '<' := (List.cons.inj hc).1.symm
      obtain ⟨ts, hts⟩ := exists_tags a
      have htags : T = T' ++ (a.takeWhile (· != byte '>') :: ts) := by
        rw [← hs.tags_eq, hs', hts]
      have hlen : T.length = T'.length + (ts.length + 1) := by
        rw [htags, List.length_append, List.length_cons]
      omega

/-- Two lists are split at their first bad member in the same place. -/
lemma split_at_first {α : Type} {P : α → Prop} {A B K R : List α} {t u : α}
    (h : A ++ t :: B = K ++ u :: R) (hA : ∀ a ∈ A, P a) (hK : ∀ a ∈ K, P a) (ht : ¬P t)
    (hu : ¬P u) : A = K ∧ t = u ∧ B = R := by
  rcases List.append_eq_append_iff.mp h with ⟨a, rfl, ha⟩ | ⟨a, rfl, ha⟩
  · cases a with
    | nil => simpa using ha
    | cons x a =>
      obtain ⟨rfl, -⟩ := List.cons.inj ha
      exact absurd (hK t (by simp)) ht
  · cases a with
    | nil => exact ⟨by simp, (List.cons.inj ha).1.symm, (List.cons.inj ha).2.symm⟩
    | cons x a =>
      obtain ⟨rfl, -⟩ := List.cons.inj ha
      exact absurd (hA u (by simp)) hu

/-- A tag of the document is the first `<plist>` tag, or comes after its end. -/
lemma first_or_after {α : Type} {D K R T X : List α} {t u v : α}
    (h : D ++ t :: (K ++ u :: R) = T ++ v :: X) (hD : v ∉ D) (hK : v ∉ K) (hu : v ≠ u) :
    T = D ∧ v = t ∧ X = K ++ u :: R ∨ (D ++ t :: (K ++ [u])).length ≤ T.length := by
  rcases List.append_eq_append_iff.mp h with ⟨a, rfl, ha⟩ | ⟨a, rfl, ha⟩
  · cases a with
    | nil =>
      obtain ⟨rfl, hX⟩ := List.cons.inj ha
      exact Or.inl ⟨by simp, rfl, hX.symm⟩
    | cons x a =>
      obtain ⟨rfl, ha'⟩ := List.cons.inj ha
      rcases List.append_eq_append_iff.mp ha' with ⟨b, rfl, hb⟩ | ⟨b, rfl, hb⟩
      · cases b with
        | nil => exact absurd (List.cons.inj hb).1.symm hu
        | cons y b =>
          refine Or.inr ?_
          simp only [List.length_append, List.length_cons, List.length_nil]
          omega
      · cases b with
        | nil => exact absurd (List.cons.inj hb).1 hu
        | cons y b =>
          obtain ⟨rfl, -⟩ := List.cons.inj hb
          exact absurd (by simp) hK
  · cases a with
    | nil =>
      obtain ⟨rfl, hX⟩ := List.cons.inj ha
      exact Or.inl ⟨by simp, rfl, hX⟩
    | cons x a =>
      obtain ⟨rfl, -⟩ := List.cons.inj ha
      exact absurd (by simp) hD

/-! ## Accepted documents -/

namespace Document

/-- The bytes of a document up to its end tag. -/
def body (d : Document) : List UInt8 :=
  d.prolog.flatMap Directive.bytes ++ d.lead ++ d.tag.bytes ++ (d.root.bytes ++
    d.close.bytes (ascii "plist"))

/-- What follows the end tag may be anything. -/
lemma bytes_eq (d : Document) : d.bytes = d.body ++ d.tail := by
  simp [bytes, body]

/-- The tags of an accepted document: none before the `<plist>` tag starts with its first letter,
and those up to the end tag are known and in balance. -/
lemma Valid.exists_tags {d : Document} (hd : d.Valid) : ∃ D K u,
    Closed (d.prolog.flatMap Directive.bytes ++ d.lead) D ∧
    (∀ t ∈ D, t.head? ≠ some (byte 'p')) ∧ (∀ t ∈ K, Known t) ∧ balance K = 0 ∧ PlistClose u ∧
    Closed d.body (D ++ (d.tag.name ++ d.tag.rest) :: (K ++ [u])) ∧
    Closed (d.root.bytes ++ d.close.bytes (ascii "plist")) (K ++ [u]) := by
  obtain ⟨D, hD, hhead⟩ := closed_directives hd.prolog hd.lead
  obtain ⟨K, hK, hknown, hbal⟩ := Element.balanced hd.root
  have hclose := hd.close.closed (show byte '>' ∉ ascii "plist" by decide)
  refine ⟨D, K, _, hD, hhead, hknown, hbal, ⟨d.close.trail, hd.close.trail, rfl⟩, ?_,
    hK.append hclose⟩
  have hall := (hD.append hd.tag.closed).append (hK.append hclose)
  rwa [List.append_assoc D, List.singleton_append] at hall

end Document

/-- An element starts with whitespace and a tag. -/
private lemma Element.exists_lt {e : Element} (he : e.Valid) :
    ∃ lead c, Blank lead ∧ e.bytes = lead ++ byte '<' :: c := by
  obtain ⟨lead, t, rest, hlead, -, -, hbytes⟩ := Element.exists_openTag_bytes he
  exact ⟨lead, t.name ++ t.rest ++ byte '>' :: rest, hlead, by
    rw [hbytes, OpenTag.bytes]; simp⟩

/-- The `<plist>` tag of an accepted document that is aligned has no other `>`: the value would
start with text. -/
private lemma notMem_gt {attrs rest c c' : List UInt8} {e : Element} (he : e.Valid)
    (hlt : byte '<' ∉ attrs) (hrest : rest = attrs.takeWhile (· != byte '>'))
    (heq : rest ++ byte '>' :: (e.bytes ++ c) = attrs ++ byte '>' :: c') : byte '>' ∉ attrs := by
  intro hmem
  obtain ⟨lead, c₁, hlead, hbytes⟩ := Element.exists_lt he
  have hsplit := List.takeWhile_append_dropWhile (p := (· != byte '>')) (l := attrs)
  cases hdrop : attrs.dropWhile (· != byte '>') with
  | nil => exact absurd (List.dropWhile_eq_nil_iff.mp hdrop _ hmem) (by simp)
  | cons b r =>
    rw [hdrop, ← hrest] at hsplit
    rw [← hsplit, List.append_assoc, List.cons_append] at heq
    have htail := (List.cons.inj (List.append_cancel_left heq)).2
    rw [hbytes, List.append_assoc, List.cons_append] at htail
    have hnot : byte '<' ∉ r ++ [byte '>'] := by
      intro h
      rcases List.mem_append.mp h with h | h
      · exact hlt (by rw [← hsplit]; simp [h])
      · exact absurd h (by decide)
    -- the text between the two `>` would be whitespace
    have hcat : lead ++ byte '<' :: (c₁ ++ c) = (r ++ [byte '>']) ++ c' := by
      rw [htail, List.append_assoc, List.singleton_append]
    rcases List.append_eq_append_iff.mp hcat with ⟨a, ha, hc⟩ | ⟨a, ha, hc⟩
    · cases a with
      | nil =>
        rw [List.append_nil] at ha
        have : byte '>' ∈ lead := by rw [← ha]; simp
        exact absurd (hlead _ this) (by decide)
      | cons x a =>
        obtain rfl : byte '<' = x := (List.cons.inj hc).1
        exact hnot (by rw [ha]; simp)
    · have : byte '>' ∈ lead := by rw [ha]; simp
      exact absurd (hlead _ this) (by decide)

namespace XmlDocument

/-- The bytes after the name of the `<plist>` tag. -/
private def afterName (d : XmlDocument) : List UInt8 :=
  d.attrs ++ byte '>' :: (d.root.bytes ++ d.inner.bytes ++
    ((CloseTag.ofText d.trail).bytes (ascii "plist") ++ d.tail))

/-- The `<plist>` tag as the reader cuts it. -/
private def plistTag (d : XmlDocument) : List UInt8 :=
  ascii "plist" ++ d.attrs.takeWhile (· != byte '>')

/-- The bytes of a document from the `<plist>` tag on. -/
private lemma bytes_eq (d : XmlDocument) :
    d.bytes = d.head ++ byte '<' :: (ascii "plist" ++ d.afterName) := by
  simp [bytes, afterName]

/-- The first tag from there on. -/
private lemma exists_tags_plist (d : XmlDocument) :
    ∃ X, tags (byte '<' :: (ascii "plist" ++ d.afterName)) = d.plistTag :: X := by
  obtain ⟨X, hX⟩ := exists_tags (ascii "plist" ++ d.afterName)
  refine ⟨X, hX.trans ?_⟩
  rw [List.takeWhile_append_of_pos (by decide +kernel), plistTag, afterName, List.takeWhile_append]
  split_ifs with hlen
  · rw [(List.takeWhile_sublist (· != byte '>')).eq_of_length hlen]
    simp
  · rfl

/-- The name in the `<plist>` tag, unless a carriage return follows it. -/
private lemma tagName_plistTag {d : XmlDocument} (hd : d.WellFormed) :
    tagName d.plistTag = ascii "plist" ∧ PlainAttrs d.attrs ∨ byte '\r' ∈ tagName d.plistTag := by
  have hplist : ∀ b ∈ ascii "plist", isNameChar b = true ∧ b ≠ 0 := by decide +kernel
  rw [plistTag]
  cases hattrs : d.attrs with
  | nil => exact Or.inl ⟨by decide, by simp [PlainAttrs]⟩
  | cons b attrs =>
    have hws := hd.delimited b (by rw [hattrs]; rfl)
    have hpos : (b != byte '>') = true := by
      by_contra hb
      rw [show b = byte '>' by simpa using hb] at hws
      exact absurd hws (by decide)
    rw [List.takeWhile_cons_of_pos (p := (· != byte '>')) hpos]
    by_cases hcr : b = byte '\r'
    · exact Or.inr (hcr ▸ mem_tagName_cr hplist _)
    · refine Or.inl ⟨tagName_append hplist fun b' hb' => ?_, fun h => hcr (Option.some.inj h)⟩
      obtain rfl : b = b' := by simpa using hb'
      simp only [isWs, Bool.or_eq_true, beq_iff_eq] at hws
      rcases hws with ((rfl | rfl) | rfl) | rfl
      · rfl
      · rfl
      · rfl
      · exact absurd rfl hcr

/-- The `<plist>` tag is not one that the reader takes inside a value. -/
private lemma not_known_plistTag {d : XmlDocument} (hd : d.WellFormed) : ¬Known d.plistTag := by
  have hhead : d.plistTag.head? ≠ some (byte '/') := by
    simp [plistTag, ascii, byte]
  refine (not_known hhead ?_).1
  rcases tagName_plistTag hd with ⟨h, -⟩ | h
  · rw [h]
    decide
  · exact not_mem_tagNames h

/-- If the tags up to the first `</plist>` are known and in balance, the value is plain. -/
private lemma plain_root {d : XmlDocument} (hd : d.WellFormed) {K R : List (List UInt8)}
    {u : List UInt8} (hK : ∀ t ∈ K, Known t) (hbal : balance K = 0) (hu : PlistClose u)
    (h : tags (d.root.bytes ++ d.inner.bytes ++ ((CloseTag.ofText d.trail).bytes (ascii "plist") ++
      d.tail)) = K ++ u :: R) : d.root.Plain ∧ d.inner.markup = none := by
  have hunknown : ¬Known u := fun h => h.not_plistClose hu
  have htracks := (Node.tracks hd.root).append hd.inner.isContent.tracks
  rcases htracks with hbreaks | ⟨A, hA, hAknown, -, hp⟩
  · obtain ⟨A, t, B, hAB, hAknown, ht, htclose⟩ :=
      hbreaks ((CloseTag.ofText d.trail).bytes (ascii "plist") ++ d.tail)
    obtain ⟨-, rfl, -⟩ := split_at_first (hAB.symm.trans h) hAknown hK ht hunknown
    exact absurd hu htclose
  · have hend : PlistClose (byte '/' :: (ascii "plist" ++ (CloseTag.ofText d.trail).trail)) :=
      ⟨d.trail, hd.trail, rfl⟩
    rw [hA, (CloseTag.valid_ofText hd.trail).closed (by decide)] at h
    obtain ⟨rfl, -, -⟩ := split_at_first h hAknown hK (fun h => h.not_plistClose hend) hunknown
    exact hp hbal

/-- **A well-formed document is accepted only if it is plain, or if the reader finds a document
before the `<plist>` tag.**

**Proof sketch.** Compare the tags. The reader's `<plist>` tag is the first with this name, so
the document's is the same one or comes after the reader's end tag. If they are the same, the
tags up to the first `</plist>` are known and in balance, and by `Node.tracks` the value is
plain. -/
lemma WellFormed.plain_or_before {d : XmlDocument} (hd : d.WellFormed) {D : Document}
    (hD : D.Valid) (heq : D.bytes = d.bytes) : d.Plain ∨ ∃ a, d.head = D.body ++ a := by
  obtain ⟨P, K, u, hP, hPhead, hK, hbal, hu, hbody, hrest⟩ := hD.exists_tags
  obtain ⟨T, hT⟩ := hd.exists_closed_head
  obtain ⟨X, hX⟩ := d.exists_tags_plist
  have hunknown := not_known_plistTag hd
  have hvu : d.plistTag ≠ u := by
    intro h
    obtain ⟨trail, -, hslash⟩ := hu
    exact absurd (List.cons.inj (h.trans hslash)).1 (by decide)
  have htags : P ++ (D.tag.name ++ D.tag.rest) :: (K ++ u :: tags D.tail) =
      T ++ d.plistTag :: X := by
    rw [← hX, ← hT, ← bytes_eq, ← heq, Document.bytes_eq, hbody]
    simp
  rcases first_or_after htags (fun h => hPhead _ h rfl) (fun h => hunknown (hK _ h)) hvu with
    ⟨rfl, htag, -⟩ | hafter
  · left
    have hcat : (D.prolog.flatMap Directive.bytes ++ D.lead) ++ byte '<' :: (D.tag.name ++
        D.tag.rest ++ byte '>' :: (D.root.bytes ++ (D.close.bytes (ascii "plist") ++ D.tail))) =
        d.head ++ byte '<' :: (ascii "plist" ++ d.afterName) := by
      rw [← bytes_eq, ← heq, Document.bytes, OpenTag.bytes]
      simp
    -- the bytes before the two `<plist>` tags are the same
    have hpre : d.head = D.prolog.flatMap Directive.bytes ++ D.lead := by
      obtain ⟨a, ha⟩ := Closed.prefix_of_le hP hT hcat le_rfl
      obtain ⟨a', ha'⟩ := Closed.prefix_of_le hT hP hcat.symm le_rfl
      rw [ha, List.append_assoc] at ha'
      have hnil : a ++ a' = [] := List.append_right_eq_self.mp ha'.symm
      rw [ha, (List.append_eq_nil_iff.mp hnil).1, List.append_nil]
    -- and so are the tags, and what follows them
    have hafter : d.attrs.takeWhile (· != byte '>') ++ byte '>' :: (D.root.bytes ++
        (D.close.bytes (ascii "plist") ++ D.tail)) = d.afterName := by
      rw [hpre, ← htag] at hcat
      have htail := (List.cons.inj (List.append_cancel_left hcat)).2
      rw [plistTag, List.append_assoc] at htail
      exact List.append_cancel_left htail
    have hgt : byte '>' ∉ d.attrs := notMem_gt hD.root hd.lt rfl hafter
    have hroot : tags (d.root.bytes ++ d.inner.bytes ++
        ((CloseTag.ofText d.trail).bytes (ascii "plist") ++ d.tail)) = K ++ u :: tags D.tail := by
      rw [List.takeWhile_eq_self_iff.mpr (run_of_notMem hgt), afterName] at hafter
      rw [← (List.cons.inj (List.append_cancel_left hafter)).2, ← List.append_assoc, hrest]
      simp
    obtain ⟨hplain, hinner⟩ := plain_root hd hK hbal hu hroot
    have hattrs : PlainAttrs d.attrs := by
      rcases tagName_plistTag hd with ⟨-, h⟩ | h
      · exact h
      · rw [htag, hD.tag.tagName, show (CString.ofBytes D.tag.name).bytes = ascii "plist" from
          hD.named] at h
        exact absurd h (by decide)
    exact ⟨⟨D.prolog, D.lead, hD.prolog, hD.lead, hpre⟩, hattrs, hgt, hplain, hinner⟩
  · have hcat : D.body ++ D.tail = d.head ++ byte '<' :: (ascii "plist" ++ d.afterName) := by
      rw [← Document.bytes_eq, heq, bytes_eq]
    exact Or.inr (Closed.prefix_of_le hbody hT hcat hafter)

/-- **A plain document is the image of a document that the reader accepts.** -/
lemma Plain.exists_document {d : XmlDocument} (hp : d.Plain) (hd : d.WellFormed) :
    ∃ D : Document, D.Valid ∧ D.bytes = d.bytes := by
  obtain ⟨⟨prolog, lead, hprolog, hlead, hhead⟩, hattrs, hgt, hroot, hinner⟩ := hp
  obtain ⟨e, he, hbytes⟩ := Node.exists_element hd.root hroot
  have hplist : (∀ b ∈ ascii "plist", isNameChar b = true) ∧
      (CString.ofBytes (ascii "plist")).bytes = ascii "plist" := by decide +kernel
  refine ⟨⟨prolog, lead, ⟨ascii "plist", d.attrs⟩, e, ⟨d.inner.text, d.trail⟩, d.tail⟩,
    ⟨hprolog, hlead, ⟨hplist.1, hgt, fun b hb => ?_⟩, hplist.2, he, ⟨hd.inner.1, hd.trail⟩⟩, ?_⟩
  · have hws := hd.delimited b hb
    simp only [isWs, Bool.or_eq_true, beq_iff_eq] at hws
    rcases hws with ((rfl | rfl) | rfl) | rfl
    · rfl
    · rfl
    · rfl
    · exact absurd hb hattrs
  · rw [Document.bytes, XmlDocument.bytes, hhead, hbytes, Stretch.bytes_of_plain hinner,
      OpenTag.bytes]
    simp [CloseTag.bytes, CloseTag.ofText]

/-- In a plain document there is no document before the `<plist>` tag. -/
lemma Plain.not_before {d : XmlDocument} (hp : d.Plain) {D : Document} (hD : D.Valid)
    (a : List UInt8) : d.head ≠ D.body ++ a := by
  intro heq
  obtain ⟨prolog, lead, hprolog, hlead, hhead⟩ := hp.head
  obtain ⟨T, hT, hfirst⟩ := closed_directives hprolog hlead
  obtain ⟨P, K, u, -, -, -, -, -, hbody, -⟩ := hD.exists_tags
  obtain ⟨name, hname⟩ := OpenTag.Named.exists_cons (b := byte 'p') (n := ascii "list") hD.named
  have htags : T = (P ++ (D.tag.name ++ D.tag.rest) :: (K ++ [u])) ++ tags a := by
    rw [← hT.tags_eq, ← hhead, heq, hbody]
  refine hfirst (D.tag.name ++ D.tag.rest) (by rw [htags]; simp) ?_
  rw [hname]
  rfl

end XmlDocument

/-! ## The result -/

variable {δ : Type}

/-- The object that `CFPropertyListCreateFromXMLData` returns, or nothing for `NULL`. -/
def returned (strtod : CString → δ) (mutability : MutabilityOptions) (xmlData : List UInt8) :
    Option (CFObject δ) :=
  match cfPropertyListCreateFromXMLData strtod mutability xmlData with
  | .ok (value, _) => value
  | .error _ => none

/-- An object is returned exactly for the image of a valid document with this value. -/
lemma returned_eq_some_iff (strtod : CString → δ) (mutability : MutabilityOptions)
    (x : List UInt8) (v : CFObject δ) : returned strtod mutability x = some v ↔
      ∃ D : Document, D.Valid ∧ D.bytes = x ∧ D.root.value strtod = v := by
  rw [← createFromXMLData_eq_some_iff strtod mutability, returned]
  cases h : cfPropertyListCreateFromXMLData strtod mutability x with
  | error e => simp
  | ok r =>
    obtain ⟨value, st⟩ := r
    simp

namespace XmlDocument

/-- What is found before the `<plist>` tag does not depend on what comes after. -/
private lemma returned_of_before {d d' : XmlDocument} (hd : d.WellFormed) (hp : ¬d.Plain)
    (hhead : d'.head = d.head) (strtod : CString → δ) (mutability : MutabilityOptions)
    {v : CFObject δ} (h : returned strtod mutability d.bytes = some v) :
    returned strtod mutability d'.bytes = some v := by
  rw [returned_eq_some_iff] at h ⊢
  obtain ⟨D, hD, heq, hv⟩ := h
  rcases hd.plain_or_before hD heq with hplain | ⟨a, ha⟩
  · exact absurd hplain hp
  · refine ⟨{ D with tail := a ++ byte '<' :: (ascii "plist" ++ d'.afterName) },
      ⟨hD.prolog, hD.lead, hD.tag, hD.named, hD.root, hD.close⟩, ?_, hv⟩
    rw [bytes_eq, hhead, ha, Document.bytes_eq, List.append_assoc]
    rfl

/-- A document that is not plain may be shortened. -/
lemma Shortens.returned_eq {d d' : XmlDocument} (h : d.Shortens d') (hd : d.WellFormed)
    (hp : ¬d.Plain) (strtod : CString → δ) (mutability : MutabilityOptions) :
    returned strtod mutability d'.bytes = returned strtod mutability d.bytes := by
  ext v
  exact ⟨returned_of_before (h.wellFormed hd) h.not_plain h.head_eq.symm strtod mutability,
    returned_of_before hd hp h.head_eq strtod mutability⟩

/-- A plain document is accepted, and no longer when it is shortened. -/
lemma Shortens.returned_ne {d d' : XmlDocument} (h : d.Shortens d') (hd : d.WellFormed)
    (hp : d.Plain) (strtod : CString → δ) (mutability : MutabilityOptions) :
    returned strtod mutability d'.bytes ≠ returned strtod mutability d.bytes := by
  obtain ⟨D, hD, hbytes⟩ := hp.exists_document hd
  rw [(returned_eq_some_iff strtod mutability d.bytes _).mpr ⟨D, hD, hbytes, rfl⟩]
  intro heq
  obtain ⟨D', hD', hbytes', -⟩ := (returned_eq_some_iff strtod mutability _ _).mp heq
  rcases (h.wellFormed hd).plain_or_before hD' hbytes' with hplain | ⟨a, ha⟩
  · exact h.not_plain hplain
  · exact hp.not_before hD' a (h.head_eq.symm.trans ha)

end XmlDocument

/-- **Replacing an empty element by its self-closing form leaves the result of the reader
unchanged exactly in the documents that are not plain.**

**Proof sketch.** A plain document is accepted and its shortened form is not. Of another document
neither form is accepted, unless the reader takes a document before the `<plist>` tag; the two
forms agree up to there. -/
theorem selfClosing_iff {d d' : XmlDocument} (hd : d.WellFormed) (h : d.Shortens d')
    (strtod : CString → δ) (mutability : MutabilityOptions) :
    returned strtod mutability d'.bytes = returned strtod mutability d.bytes ↔ ¬d.Plain := by
  constructor
  · exact fun heq hp => h.returned_ne hd hp strtod mutability heq
  · exact fun hp => h.returned_eq hd hp strtod mutability

/-- `<plist><dict></dict></plist>`. -/
def emptyDict : XmlDocument where
  mark := []
  prolog := []
  lead := []
  attrs := []
  root := .dict Stretch.empty [] [] Stretch.empty []
  inner := Stretch.empty
  trail := []
  tail := []

/-- `<plist><dict/></plist>`. -/
def emptyDict' : XmlDocument := { emptyDict with root := .empty Stretch.empty (ascii "dict") [] }

/-- Nothing is whitespace. -/
private lemma isGap_empty : Stretch.empty.IsGap :=
  ⟨fun _ hb => absurd hb List.not_mem_nil, fun _ hm => absurd hm (by simp [Stretch.empty])⟩

/-- A tag may have no attributes. -/
private lemma isAttrs_nil : IsAttrs [] := ⟨by simp, by simp, by simp, by simp⟩

/-- The first document is well-formed. -/
private lemma wellFormed_emptyDict : emptyDict.WellFormed :=
  ⟨by simp [emptyDict], by simp [emptyDict], by simp [emptyDict, Blank], by simp [emptyDict],
    by simp [emptyDict],
    ⟨isGap_empty, isAttrs_nil, trivial, isGap_empty, fun _ hb => absurd hb List.not_mem_nil⟩,
    isGap_empty, by simp [emptyDict, Blank]⟩

/-- The first document is plain. -/
private lemma plain_emptyDict : emptyDict.Plain :=
  ⟨⟨[], [], by simp, by simp [Blank], rfl⟩, by simp [PlainAttrs, emptyDict], by simp [emptyDict],
    ⟨rfl, by simp [PlainAttrs], trivial, rfl⟩, rfl⟩

/-- The second document shortens the first. -/
private lemma shortens_emptyDict : emptyDict.Shortens emptyDict' :=
  ⟨_, Node.Shortens.dict Stretch.empty, rfl⟩

/-- The statement at an empty dictionary that is the whole document. -/
theorem selfClosing_iff_emptyDict :
    returned (fun _ => ()) .immutable emptyDict'.bytes =
      returned (fun _ => ()) .immutable emptyDict.bytes ↔ ¬emptyDict.Plain :=
  selfClosing_iff wellFormed_emptyDict shortens_emptyDict _ _

/-- `<dict></dict>` is read, `<dict/>` is not. -/
theorem selfClosing_changes_emptyDict :
    ¬∀ d d' : XmlDocument, d.WellFormed → d.Shortens d' →
      returned (fun _ => ()) .immutable d'.bytes = returned (fun _ => ()) .immutable d.bytes :=
  fun h => (shortens_emptyDict).returned_ne wellFormed_emptyDict plain_emptyDict _ _
    (h emptyDict emptyDict' wellFormed_emptyDict shortens_emptyDict)

end Asteros.CoreFoundation
