import Asteros.Foundation.Json.Safety

set_option autoImplicit false

/-!
# The grammar of JSON and the reader

A text is the image of at most one tree. The reader accepts the texts of readable trees, whatever
follows them, and the grammar of RFC 8259 those of strict trees with whitespace around them; so
the two differ on the texts whose one reading is readable and not strict, or strict and, for the
length of a number, not readable.

## Main definitions

* `Document` — a container with what stands around it.
* `IsRfc8259` — the texts of the grammar.

## Main results

* `tree_unique` — a text is the image of one tree only.
* `accepts_iff_readable` — what the reader accepts.
* `decidesGrammar_iff` — where it agrees with the grammar.
-/

namespace Asteros.Foundation.Json

open Asteros.Libc Asteros.CoreFoundation Asteros.Foundation.Json.Tree

variable {δ : Type} (lib : Library δ)

/-! ## A text is the image of one tree only -/

/-- Whitespace ends where something else starts. -/
lemma blank_unique {s s' c c' : List UInt8} (hs : Blank s) (hs' : Blank s')
    (hc : ∀ b ∈ c.head?, isWs b = false) (hc' : ∀ b ∈ c'.head?, isWs b = false)
    (h : s ++ c = s' ++ c') : s = s' ∧ c = c' := by
  obtain ⟨htake, hdrop⟩ := takeWhile_run hs hc
  obtain ⟨htake', hdrop'⟩ := takeWhile_run hs' hc'
  rw [h] at htake hdrop
  exact ⟨htake.symm.trans htake', hdrop.symm.trans hdrop'⟩

/-- The first character of a text that starts is no whitespace. -/
lemma Starts.head {s : List UInt8} (hs : Starts s) (c : List UInt8) :
    ∀ b ∈ (s ++ c).head?, isWs b = false := by
  obtain ⟨b, s, rfl, hb, -⟩ := hs
  simpa using hb

/-- A separator is no whitespace. -/
private lemma separator_head {b : UInt8} (hb : b = byte ',' ∨ b = byte ']' ∨ b = byte '}')
    (c : List UInt8) : ∀ b' ∈ (b :: c).head?, isWs b' = false := by
  rintro b' hb'
  obtain rfl := Option.some.inj hb'
  rcases hb with rfl | rfl | rfl <;> decide

/-- The numbers of well-formed values are well-formed. -/
private lemma wellFormed_number (n : Number) (h : wellFormed.number n) : n.WellFormed := h

/-- The value is the only one that a text with it at its start can be read as. -/
def Unique (t : Tree) : Prop := ∀ (t' : Tree) (r r' : List UInt8), Follows wellFormed t' →
    t.IsContainer ∨ Stops r → t'.IsContainer ∨ Stops r' → t.bytes ++ r = t'.bytes ++ r' →
      t = t' ∧ r = r'

/-- Two values with whitespace around them and separators behind. -/
private lemma slot_unique {t t' : Tree} (ht : Follows wellFormed t) (ht' : Follows wellFormed t')
    (hu : Unique t) {lead lead' trail trail' : List UInt8} (hlead : Blank lead)
    (hlead' : Blank lead') (htrail : Blank trail) (htrail' : Blank trail') {b b' : UInt8}
    (hb : b = byte ',' ∨ b = byte ']' ∨ b = byte '}')
    (hb' : b' = byte ',' ∨ b' = byte ']' ∨ b' = byte '}') {c c' : List UInt8}
    (h : lead ++ (t.bytes ++ (trail ++ b :: c)) = lead' ++ (t'.bytes ++ (trail' ++ b' :: c'))) :
    lead = lead' ∧ t = t' ∧ trail = trail' ∧ b = b' ∧ c = c' := by
  obtain ⟨rfl, h₁⟩ := blank_unique hlead hlead' ((starts_tree wellFormed_number ht).head _)
    ((starts_tree wellFormed_number ht').head _) h
  obtain ⟨rfl, h₂⟩ := hu t' _ _ ht' (Or.inr (stops_of_blank htrail hb c))
    (Or.inr (stops_of_blank htrail' hb' c')) h₁
  obtain ⟨rfl, h₃⟩ := blank_unique htrail htrail' (separator_head hb c) (separator_head hb' c') h₂
  obtain ⟨rfl, rfl⟩ := List.cons.inj h₃
  exact ⟨rfl, rfl, rfl, rfl, rfl⟩

/-- The values of two arrays. -/
private lemma elements_unique {done done' : List (List UInt8 × Tree × List UInt8)}
    (hd : ElementsFollow wellFormed done) (hd' : ElementsFollow wellFormed done')
    (hu : ∀ slot ∈ done, Unique slot.2.1) {lead lead' trail trail' : List UInt8} {t t' : Tree}
    (hlead : Blank lead) (hlead' : Blank lead') (ht : Follows wellFormed t)
    (ht' : Follows wellFormed t') (hut : Unique t) (htrail : Blank trail)
    (htrail' : Blank trail') {c c' : List UInt8}
    (h : elementsBytes done ++ (lead ++ (t.bytes ++ (trail ++ byte ']' :: c))) =
      elementsBytes done' ++ (lead' ++ (t'.bytes ++ (trail' ++ byte ']' :: c')))) :
    (done = done' ∧ lead = lead' ∧ t = t' ∧ trail = trail') ∧ c = c' := by
  have hclose : byte ']' = byte ',' ∨ byte ']' = byte ']' ∨ byte ']' = byte '}' :=
    Or.inr (Or.inl rfl)
  induction done generalizing done' with
  | nil =>
    cases done' with
    | nil =>
      obtain ⟨rfl, rfl, rfl, -, rfl⟩ := slot_unique ht ht' hut hlead hlead' htrail htrail'
        hclose hclose h
      exact ⟨⟨rfl, rfl, rfl, rfl⟩, rfl⟩
    | cons slot' done' =>
      obtain ⟨lead₁, t₁, trail₁⟩ := slot'
      obtain ⟨⟨hlead₁, ht₁, htrail₁⟩, -⟩ := hd'
      simp only [elementsBytes, List.nil_append, List.append_assoc, List.cons_append] at h
      obtain ⟨-, -, -, hb, -⟩ := slot_unique ht ht₁ hut hlead hlead₁ htrail htrail₁ hclose
        (Or.inl rfl) h
      exact absurd hb (by decide)
  | cons slot done ih =>
    obtain ⟨lead₀, t₀, trail₀⟩ := slot
    obtain ⟨⟨hlead₀, ht₀, htrail₀⟩, hd⟩ := hd
    have hu₀ : Unique t₀ := hu _ List.mem_cons_self
    cases done' with
    | nil =>
      simp only [elementsBytes, List.nil_append, List.append_assoc, List.cons_append] at h
      obtain ⟨-, -, -, hb, -⟩ := slot_unique ht₀ ht' hu₀ hlead₀ hlead' htrail₀ htrail'
        (Or.inl rfl) hclose h
      exact absurd hb (by decide)
    | cons slot' done' =>
      obtain ⟨lead₁, t₁, trail₁⟩ := slot'
      obtain ⟨⟨hlead₁, ht₁, htrail₁⟩, hd'⟩ := hd'
      simp only [elementsBytes, List.append_assoc, List.cons_append] at h
      obtain ⟨rfl, rfl, rfl, -, htail⟩ := slot_unique ht₀ ht₁ hu₀ hlead₀ hlead₁ htrail₀ htrail₁
        (Or.inl rfl) (Or.inl rfl) h
      obtain ⟨⟨rfl, hrest⟩, rfl⟩ := ih hd hd' (fun slot h => hu slot (List.mem_cons_of_mem _ h))
        htail
      exact ⟨⟨rfl, hrest⟩, rfl⟩

/-- Two strings. -/
private lemma string_unique {items items' : List Item} (hi : ∀ i ∈ items, i.WellFormed)
    (hi' : ∀ i ∈ items', i.WellFormed) {c c' : List UInt8}
    (h : stringBytes items ++ c = stringBytes items' ++ c') : items = items' ∧ c = c' := by
  have hcat : bodyBytes items ++ byte '"' :: c = bodyBytes items' ++ byte '"' :: c' := by
    simpa [stringBytes] using h
  have hend : ∀ c, BodyEnd (byte '"' :: c) := fun c => Or.inl (by simp)
  obtain ⟨rfl, htail⟩ := body_unique hi hi' (hend c) (hend c') hcat
  exact ⟨rfl, (List.cons.inj htail).2⟩

/-- Two keys with something behind them that starts. -/
private lemma key_unique {k k' : Key} (hk : wellFormed.OfKey k) (hk' : wellFormed.OfKey k')
    {s s' : List UInt8} (hs : ∀ b ∈ s.head?, isWs b = false)
    (hs' : ∀ b ∈ s'.head?, isWs b = false) (h : k.bytes ++ s = k'.bytes ++ s') :
    k = k' ∧ s = s' := by
  obtain ⟨lead, name, before, after⟩ := k
  obtain ⟨lead', name', before', after'⟩ := k'
  obtain ⟨hlead, hname, hbefore, hafter⟩ := hk
  obtain ⟨hlead', hname', hbefore', hafter'⟩ := hk'
  simp only [Key.bytes, List.append_assoc, List.cons_append] at h
  have hquote : ∀ items, Starts (stringBytes items) := fun items => starts_quote _
  obtain ⟨rfl, h₁⟩ := blank_unique hlead hlead' ((hquote name).head _) ((hquote name').head _) h
  obtain ⟨rfl, h₂⟩ := string_unique hname hname' h₁
  have hcolon : ∀ c : List UInt8, ∀ b ∈ (byte ':' :: c).head?, isWs b = false := by
    rintro c b hb
    obtain rfl := Option.some.inj hb
    decide
  obtain ⟨rfl, h₃⟩ := blank_unique hbefore hbefore' (hcolon _) (hcolon _) h₂
  obtain ⟨rfl, rfl⟩ := blank_unique hafter hafter' hs hs' (List.cons.inj h₃).2
  exact ⟨rfl, rfl⟩

/-- Two members with separators behind. -/
private lemma member_unique {k k' : Key} (hk : wellFormed.OfKey k) (hk' : wellFormed.OfKey k')
    {t t' : Tree} (ht : Follows wellFormed t) (ht' : Follows wellFormed t') (hu : Unique t)
    {trail trail' : List UInt8} (htrail : Blank trail) (htrail' : Blank trail') {b b' : UInt8}
    (hb : b = byte ',' ∨ b = byte ']' ∨ b = byte '}')
    (hb' : b' = byte ',' ∨ b' = byte ']' ∨ b' = byte '}') {c c' : List UInt8}
    (h : k.bytes ++ (t.bytes ++ (trail ++ b :: c)) =
      k'.bytes ++ (t'.bytes ++ (trail' ++ b' :: c'))) :
    k = k' ∧ t = t' ∧ trail = trail' ∧ b = b' ∧ c = c' := by
  have hnil : Blank [] := fun b hb => absurd hb List.not_mem_nil
  obtain ⟨rfl, htail⟩ := key_unique hk hk' ((starts_tree wellFormed_number ht).head _)
    ((starts_tree wellFormed_number ht').head _) h
  obtain ⟨-, hrest⟩ := slot_unique ht ht' hu hnil hnil htrail htrail' hb hb'
    (by rwa [List.nil_append, List.nil_append])
  exact ⟨rfl, hrest⟩

/-- The members of two objects. -/
private lemma members_unique {done done' : List (Key × Tree × List UInt8)}
    (hd : MembersFollow wellFormed done) (hd' : MembersFollow wellFormed done')
    (hu : ∀ slot ∈ done, Unique slot.2.1) {k k' : Key} {trail trail' : List UInt8} {t t' : Tree}
    (hk : wellFormed.OfKey k) (hk' : wellFormed.OfKey k') (ht : Follows wellFormed t)
    (ht' : Follows wellFormed t') (hut : Unique t) (htrail : Blank trail)
    (htrail' : Blank trail') {c c' : List UInt8}
    (h : membersBytes done ++ (k.bytes ++ (t.bytes ++ (trail ++ byte '}' :: c))) =
      membersBytes done' ++ (k'.bytes ++ (t'.bytes ++ (trail' ++ byte '}' :: c')))) :
    (done = done' ∧ k = k' ∧ t = t' ∧ trail = trail') ∧ c = c' := by
  have hclose : byte '}' = byte ',' ∨ byte '}' = byte ']' ∨ byte '}' = byte '}' :=
    Or.inr (Or.inr rfl)
  induction done generalizing done' with
  | nil =>
    cases done' with
    | nil =>
      obtain ⟨rfl, rfl, rfl, -, rfl⟩ := member_unique hk hk' ht ht' hut htrail htrail' hclose
        hclose h
      exact ⟨⟨rfl, rfl, rfl, rfl⟩, rfl⟩
    | cons slot' done' =>
      obtain ⟨k₁, t₁, trail₁⟩ := slot'
      obtain ⟨⟨hk₁, ht₁, htrail₁⟩, -⟩ := hd'
      simp only [membersBytes, List.nil_append, List.append_assoc, List.cons_append] at h
      obtain ⟨-, -, -, hb, -⟩ := member_unique hk hk₁ ht ht₁ hut htrail htrail₁ hclose
        (Or.inl rfl) h
      exact absurd hb (by decide)
  | cons slot done ih =>
    obtain ⟨k₀, t₀, trail₀⟩ := slot
    obtain ⟨⟨hk₀, ht₀, htrail₀⟩, hd⟩ := hd
    have hu₀ : Unique t₀ := hu _ List.mem_cons_self
    cases done' with
    | nil =>
      simp only [membersBytes, List.nil_append, List.append_assoc, List.cons_append] at h
      obtain ⟨-, -, -, hb, -⟩ := member_unique hk₀ hk' ht₀ ht' hu₀ htrail₀ htrail'
        (Or.inl rfl) hclose h
      exact absurd hb (by decide)
    | cons slot' done' =>
      obtain ⟨k₁, t₁, trail₁⟩ := slot'
      obtain ⟨⟨hk₁, ht₁, htrail₁⟩, hd'⟩ := hd'
      simp only [membersBytes, List.append_assoc, List.cons_append] at h
      obtain ⟨rfl, rfl, rfl, -, htail⟩ := member_unique hk₀ hk₁ ht₀ ht₁ hu₀ htrail₀ htrail₁
        (Or.inl rfl) (Or.inl rfl) h
      obtain ⟨⟨rfl, hrest⟩, rfl⟩ := ih hd hd' (fun slot h => hu slot (List.mem_cons_of_mem _ h))
        htail
      exact ⟨⟨rfl, hrest⟩, rfl⟩

/-- The kinds of values that a first character tells apart. -/
def kindOf (b : UInt8) : ℕ :=
  if b = byte 'n' then 0 else if b = byte 't' then 1 else if b = byte 'f' then 2
  else if b = byte '"' then 3 else if b = byte '[' then 4 else if b = byte '{' then 5 else 6

/-- The kind of a value. -/
def Tree.kind : Tree → ℕ
  | .null => 0
  | .boolean true => 1
  | .boolean false => 2
  | .string _ => 3
  | .emptyArray _ => 4
  | .array _ _ _ _ => 4
  | .emptyObject _ => 5
  | .object _ _ _ _ => 5
  | .number _ => 6

/-- The first character of a value tells its kind. -/
private lemma exists_kind {t : Tree} (ht : Follows wellFormed t) :
    ∃ b s, t.bytes = b :: s ∧ kindOf b = t.kind := by
  cases t with
  | number n =>
    obtain ⟨b, s, hbytes, hb⟩ := Number.WellFormed.exists_cons ht
    refine ⟨b, s, hbytes, ?_⟩
    have hne : ∀ b' : UInt8, b' ≠ byte '-' → isdigit b' = false → b ≠ b' := by
      rintro b' hminus hdigit rfl
      rcases hb with h | h
      · exact hminus h
      · rw [hdigit] at h
        cases h
    rw [kindOf, if_neg (hne _ (by decide) (by decide)), if_neg (hne _ (by decide) (by decide)),
      if_neg (hne _ (by decide) (by decide)), if_neg (hne _ (by decide) (by decide)),
      if_neg (hne _ (by decide) (by decide)), if_neg (hne _ (by decide) (by decide))]
    rfl
  | boolean b =>
    cases b with
    | true => exact ⟨_, _, rfl, by decide⟩
    | false => exact ⟨_, _, rfl, by decide⟩
  | _ => exact ⟨_, _, rfl, rfl⟩

/-- Two values at the start of one text have the same kind. -/
private lemma kind_eq {t t' : Tree} (ht : Follows wellFormed t) (ht' : Follows wellFormed t')
    {r r' : List UInt8} (h : t.bytes ++ r = t'.bytes ++ r') : t.kind = t'.kind := by
  obtain ⟨b, s, hbytes, hb⟩ := exists_kind ht
  obtain ⟨b', s', hbytes', hb'⟩ := exists_kind ht'
  rw [hbytes, hbytes'] at h
  obtain ⟨rfl, -⟩ := List.cons.inj h
  rw [← hb, ← hb']

/-- An empty container is no other one. -/
private lemma not_starts_close {blank s c : List UInt8} (hblank : Blank blank) {b : UInt8}
    (hb : b = byte ']' ∨ b = byte '}') (h : blank ++ b :: c = s)
    (hs : Starts (s.dropWhile isWs)) : False := by
  have hws : isWs b = false := by
    rcases hb with rfl | rfl <;> decide
  rw [← h, dropWhile_blank hblank hws] at hs
  obtain ⟨b', s', heq, -, hne, hne'⟩ := hs
  obtain ⟨rfl, -⟩ := List.cons.inj heq
  rcases hb with hb | hb
  · exact hne hb
  · exact hne' hb

/-- **A text is the image of one tree only.**

**Proof sketch.** Induction over the value; the first character tells the kind of the other one.
Whitespace, strings and numbers end where they must, and the values of containers are compared one
after another. -/
theorem tree_unique {t : Tree} (ht : Follows wellFormed t) : Unique t := by
  have hstart : ∀ {t : Tree}, Follows wellFormed t → ∀ c, Starts (t.bytes ++ c) := fun ht c => by
    obtain ⟨b, s, hbytes, hb⟩ := starts_tree wellFormed_number ht
    exact ⟨b, s ++ c, by rw [hbytes, List.cons_append], hb⟩
  have hkeyStart : ∀ {done : List (Key × Tree × List UInt8)} {k : Key},
      MembersFollow wellFormed done → wellFormed.OfKey k → ∀ c,
        Starts ((membersBytes done ++ (k.bytes ++ c)).dropWhile isWs) := fun {done k} hd hk c => by
    have hcat : k.bytes ++ c = k.lead ++ (byte '"' :: (bodyBytes k.name ++ [byte '"'] ++
        (k.before ++ byte ':' :: k.after) ++ c)) := by
      simp [Key.bytes, stringBytes]
    rw [hcat]
    exact starts_members (fun _ h => h) hd hk.1 (starts_quote _)
  induction t using treeInduction with
  | null =>
    intro t' r r' ht' hr hr' h
    have hkind := kind_eq ht ht' h
    cases t' with
    | null => exact ⟨rfl, List.append_cancel_left h⟩
    | boolean b' => cases b' <;> cases hkind
    | _ => cases hkind
  | boolean b =>
    intro t' r r' ht' hr hr' h
    have hkind := kind_eq ht ht' h
    cases t' with
    | boolean b' =>
      cases b with
      | true =>
        cases b' with
        | true => exact ⟨rfl, List.append_cancel_left h⟩
        | false => cases hkind
      | false =>
        cases b' with
        | true => cases hkind
        | false => exact ⟨rfl, List.append_cancel_left h⟩
    | _ => cases b <;> cases hkind
  | number n =>
    intro t' r r' ht' hr hr' h
    have hkind := kind_eq ht ht' h
    cases t' with
    | number n' =>
      have hn := numberAt_append ht (hr.resolve_left id)
      have hn' := numberAt_append ht' (hr'.resolve_left id)
      rw [show n.bytes ++ r = n'.bytes ++ r' from h, hn'] at hn
      obtain ⟨rfl, rfl⟩ := Prod.mk.inj hn
      exact ⟨rfl, rfl⟩
    | boolean b' => cases b' <;> cases hkind
    | _ => cases hkind
  | string items =>
    intro t' r r' ht' hr hr' h
    have hkind := kind_eq ht ht' h
    cases t' with
    | string items' =>
      obtain ⟨rfl, rfl⟩ := string_unique ht ht' h
      exact ⟨rfl, rfl⟩
    | boolean b' => cases b' <;> cases hkind
    | _ => cases hkind
  | emptyArray blank =>
    intro t' r r' ht' hr hr' h
    have hkind := kind_eq ht ht' h
    cases t' with
    | emptyArray blank' =>
      simp only [Tree.bytes, List.cons_append, List.append_assoc, List.nil_append] at h
      obtain ⟨rfl, htail⟩ := blank_unique ht ht' (separator_head (Or.inr (Or.inl rfl)) r)
        (separator_head (Or.inr (Or.inl rfl)) r') (List.cons.inj h).2
      exact ⟨rfl, (List.cons.inj htail).2⟩
    | array done' lead' last' trail' =>
      simp only [Tree.bytes, List.cons_append, List.append_assoc, List.nil_append] at h
      exact (not_starts_close ht (Or.inl rfl) (List.cons.inj h).2 (starts_elements
        wellFormed_number (fun _ h => h) ht'.1 ht'.2.1 (hstart ht'.2.2.1 _))).elim
    | boolean b' => cases b' <;> cases hkind
    | _ => cases hkind
  | array done lead last trail ihd ihl =>
    intro t' r r' ht' hr hr' h
    have hkind := kind_eq ht ht' h
    cases t' with
    | emptyArray blank' =>
      simp only [Tree.bytes, List.cons_append, List.append_assoc, List.nil_append] at h
      exact (not_starts_close ht' (Or.inl rfl) (List.cons.inj h).2.symm (starts_elements
        wellFormed_number (fun _ h => h) ht.1 ht.2.1 (hstart ht.2.2.1 _))).elim
    | array done' lead' last' trail' =>
      obtain ⟨hd, hlead, hlast, htrail⟩ := ht
      obtain ⟨hd', hlead', hlast', htrail'⟩ := ht'
      have hdone := (elementsFollow_iff done).mp hd
      simp only [Tree.bytes, List.cons_append, List.append_assoc, List.nil_append] at h
      obtain ⟨⟨rfl, rfl, rfl, rfl⟩, rfl⟩ := elements_unique hd hd'
        (fun slot h => ihd slot h (hdone slot h).2.1) hlead hlead' hlast hlast' (ihl hlast) htrail
        htrail' (List.cons.inj h).2
      exact ⟨rfl, rfl⟩
    | boolean b' => cases b' <;> cases hkind
    | _ => cases hkind
  | emptyObject blank =>
    intro t' r r' ht' hr hr' h
    have hkind := kind_eq ht ht' h
    cases t' with
    | emptyObject blank' =>
      simp only [Tree.bytes, List.cons_append, List.append_assoc, List.nil_append] at h
      obtain ⟨rfl, htail⟩ := blank_unique ht ht' (separator_head (Or.inr (Or.inr rfl)) r)
        (separator_head (Or.inr (Or.inr rfl)) r') (List.cons.inj h).2
      exact ⟨rfl, (List.cons.inj htail).2⟩
    | object done' k' last' trail' =>
      simp only [Tree.bytes, List.cons_append, List.append_assoc, List.nil_append] at h
      exact (not_starts_close ht (Or.inr rfl) (List.cons.inj h).2 (hkeyStart ht'.1 ht'.2.1 _)).elim
    | boolean b' => cases b' <;> cases hkind
    | _ => cases hkind
  | object done k last trail ihd ihl =>
    intro t' r r' ht' hr hr' h
    have hkind := kind_eq ht ht' h
    cases t' with
    | emptyObject blank' =>
      simp only [Tree.bytes, List.cons_append, List.append_assoc, List.nil_append] at h
      exact (not_starts_close ht' (Or.inr rfl) (List.cons.inj h).2.symm
        (hkeyStart ht.1 ht.2.1 _)).elim
    | object done' k' last' trail' =>
      obtain ⟨hd, hk, hlast, htrail⟩ := ht
      obtain ⟨hd', hk', hlast', htrail'⟩ := ht'
      have hdone := (membersFollow_iff done).mp hd
      simp only [Tree.bytes, List.cons_append, List.append_assoc, List.nil_append] at h
      obtain ⟨⟨rfl, rfl, rfl, rfl⟩, rfl⟩ := members_unique hd hd'
        (fun slot h => ihd slot h (hdone slot h).2.1) hk hk' hlast hlast' (ihl hlast) htrail
        htrail' (List.cons.inj h).2
      exact ⟨rfl, rfl⟩
    | boolean b' => cases b' <;> cases hkind
    | _ => cases hkind

/-! ## What the reader accepts -/

/-- A container with what stands before and after it. -/
structure Document where
  lead : List UInt8
  root : Tree
  rest : List UInt8

namespace Document

/-- The text. -/
def bytes (d : Document) : List UInt8 := d.lead ++ (d.root.bytes ++ d.rest)

/-- The text is whitespace, a container that may be written loosely, and anything. -/
structure WellFormed (d : Document) : Prop where
  lead : Blank d.lead
  root : Follows wellFormed d.root
  container : d.root.IsContainer

/-- The container and what follows it are as RFC 8259 has them. -/
structure Strict (d : Document) : Prop where
  root : Follows strict d.root
  rest : Blank d.rest

/-- The numbers fit the array of the reader. -/
def Short (d : Document) : Prop := Follows short d.root

/-- **A text is that of one document only.** -/
lemma unique {d d' : Document} (hd : d.WellFormed) (hd' : d'.WellFormed)
    (h : d.bytes = d'.bytes) : d = d' := by
  obtain ⟨lead, root, rest⟩ := d
  obtain ⟨lead', root', rest'⟩ := d'
  obtain ⟨rfl, htail⟩ := blank_unique hd.lead hd'.lead
    ((starts_tree wellFormed_number hd.root).head _)
    ((starts_tree wellFormed_number hd'.root).head _) h
  obtain ⟨rfl, rfl⟩ := tree_unique hd.root root' rest rest' hd'.root (Or.inl hd.container)
    (Or.inl hd'.container) htail
  rfl

end Document

/-- The text is one of RFC 8259 with an object or array at the top. -/
def IsRfc8259 (s : List UInt8) : Prop :=
  ∃ d : Document, d.WellFormed ∧ d.Strict ∧ d.bytes = s

/-- What is readable is well-formed with short numbers. -/
lemma follows_readable_iff (t : Tree) :
    Follows readable t ↔ Follows wellFormed t ∧ Follows short t := by
  induction t using treeInduction with
  | null => simp [Follows]
  | boolean b => simp [Follows]
  | number n => exact Iff.rfl
  | string items => simp [Follows, readable, wellFormed, short]
  | emptyArray blank => simp [Follows, readable, wellFormed, short]
  | array done lead last trail ihd ihl =>
    have hdone : ElementsFollow readable done ↔
        ElementsFollow wellFormed done ∧ ElementsFollow short done := by
      simp only [elementsFollow_iff, ← forall_and]
      refine forall_congr' fun slot => forall_congr' fun hs => ?_
      rw [ihd slot hs]
      simp only [readable, wellFormed, short]
      tauto
    simp only [Follows, hdone, ihl]
    simp only [readable, wellFormed, short]
    tauto
  | emptyObject blank => simp [Follows, readable, wellFormed, short]
  | object done k last trail ihd ihl =>
    have hdone : MembersFollow readable done ↔
        MembersFollow wellFormed done ∧ MembersFollow short done := by
      simp only [membersFollow_iff, ← forall_and]
      refine forall_congr' fun slot => forall_congr' fun hs => ?_
      rw [ihd slot hs]
      simp only [Rule.OfKey, readable, wellFormed, short]
      tauto
    simp only [Follows, hdone, ihl]
    simp only [Rule.OfKey, readable, wellFormed, short]
    tauto

/-- The reader returns an object. -/
def Accepts (s : List UInt8) : Prop := ∃ o, jsonObjectWithData lib s = .ok (some o)

/-- **The reader accepts the texts of readable containers**, whatever follows them.

**Proof sketch.** What it returns comes from a readable tree (`parse_sound`), and it reads the text
of every readable container (`parse_tree`). -/
theorem accepts_iff_readable (s : List UInt8) :
    Accepts lib s ↔ ∃ d : Document, d.WellFormed ∧ d.Short ∧ d.bytes = s := by
  constructor
  · rintro ⟨o, ho⟩
    cases h : s.dropWhile isWs with
    | nil =>
      rw [jsonObjectWithData_nil lib h] at ho
      cases ho
    | cons b r =>
      have hreads := jsonObjectWithData_reads lib h
      rw [jsonObjectWithData_cons lib h] at ho
      split_ifs at ho with hb
      · obtain ⟨result, hparse, ho⟩ := ok_of_bind ho
        cases result with
        | none => cases ho
        | some result =>
          rw [hparse] at hreads
          obtain ⟨t, rest, ht, hbytes, -, -⟩ := hreads
          obtain ⟨lead, hlead, hs⟩ := exists_blank s
          obtain ⟨hwf, hshort⟩ := (follows_readable_iff t).mp ht
          have hcontainer : t.IsContainer := by
            obtain ⟨b', s', hb', hkind⟩ := exists_kind hwf
            rw [hb'] at hbytes
            obtain ⟨rfl, -⟩ := List.cons.inj hbytes
            have hkind' : t.kind = 5 ∨ t.kind = 4 := by
              rw [← hkind]
              rcases hb with rfl | rfl
              · exact Or.inl (by decide)
              · exact Or.inr (by decide)
            cases t with
            | boolean b => cases b <;> simp [Tree.kind] at hkind'
            | null => simp [Tree.kind] at hkind'
            | number n => simp [Tree.kind] at hkind'
            | string items => simp [Tree.kind] at hkind'
            | _ => exact trivial
          refine ⟨⟨lead, t, rest⟩, ⟨hlead, hwf, hcontainer⟩, hshort, ?_⟩
          rw [Document.bytes, ← hbytes, ← h]
          exact hs.symm
      · cases ho
  · rintro ⟨⟨lead, t, rest⟩, ⟨hlead, hwf, hcontainer⟩, hshort, rfl⟩
    have ht : Follows readable t := (follows_readable_iff t).mpr ⟨hwf, hshort⟩
    exact ⟨t.value lib, jsonObjectWithData_tree lib hlead ht hcontainer rest⟩

/-! ## Where the reader and the grammar agree -/

/-- The reader decides whether the text is one of the grammar: it ends inside its buffer, and
returns an object exactly if the text is one. -/
def DecidesGrammar (s : List UInt8) : Prop :=
  StaysInside lib s ∧ (Accepts lib s ↔ IsRfc8259 s)

/-- The reader takes no liberty with the text: it does not end in the middle of an escape, and if
it can be read at all, it has short numbers exactly if it is a text of the grammar. -/
def NoLiberty (s : List UInt8) : Prop :=
  ¬EndsInEscape s ∧ ∀ d : Document, d.WellFormed → d.bytes = s → (d.Short ↔ d.Strict)

/-- **Where the reader decides the grammar.**

**Proof sketch.** The reader accepts the texts of documents with short numbers
(`accepts_iff_readable`), and the grammar has those of strict ones; a text is that of at most one
document (`Document.unique`). -/
theorem decidesGrammar_iff (s : List UInt8) : DecidesGrammar lib s ↔ NoLiberty s := by
  constructor
  · rintro ⟨⟨result, hresult⟩, hiff⟩
    refine ⟨fun hescape => ?_, fun d hd hbytes => ⟨fun hshort => ?_, fun hstrict => ?_⟩⟩
    · rw [jsonObjectWithData_of_endsInEscape lib hescape] at hresult
      cases hresult
    · obtain ⟨d', hd', hstrict, hbytes'⟩ :=
        hiff.mp ((accepts_iff_readable lib s).mpr ⟨d, hd, hshort, hbytes⟩)
      rwa [Document.unique hd hd' (hbytes.trans hbytes'.symm)]
    · obtain ⟨d', hd', hshort, hbytes'⟩ :=
        (accepts_iff_readable lib s).mp (hiff.mpr ⟨d, hd, hstrict, hbytes⟩)
      rwa [Document.unique hd hd' (hbytes.trans hbytes'.symm)]
  · rintro ⟨hescape, hreading⟩
    refine ⟨exists_result_of_not_endsInEscape lib hescape, ?_⟩
    rw [accepts_iff_readable]
    constructor
    · rintro ⟨d, hd, hshort, hbytes⟩
      exact ⟨d, hd, (hreading d hd hbytes).mp hshort, hbytes⟩
    · rintro ⟨d, hd, hstrict, hbytes⟩
      exact ⟨d, hd, (hreading d hd hbytes).mpr hstrict, hbytes⟩

/-- **Text after the top-level value is accepted.** -/
theorem not_decidesGrammar_trailing : ¬DecidesGrammar noReals (ascii "[]x") := by
  rintro ⟨-, hiff⟩
  have haccepts : Accepts noReals (ascii "[]x") := ⟨.array [], rfl⟩
  obtain ⟨d, hd, hstrict, hbytes⟩ := hiff.mp haccepts
  have hread : (Document.mk [] (.emptyArray []) (ascii "x")).WellFormed :=
    ⟨by simp [Blank], by simp [Follows, wellFormed, Blank], trivial⟩
  obtain rfl := Document.unique hd hread (hbytes.trans rfl)
  exact absurd (hstrict.rest (byte 'x') (by simp [ascii])) (by decide)

end Asteros.Foundation.Json
