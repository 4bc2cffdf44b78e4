import Asteros.Launchd.PropertyList

set_option autoImplicit false

/-!
# Keys that are not supported

What becomes of a pair of a key and a value that is put between the pairs of a file that
`plist_parse_daemon` accepts, if the key is not supported or `KeepAlive` comes with a dictionary.
The value is any element: a text, a boolean, an array or a dictionary, with its closing tag or
without, with white space in opening tags, and with white space and comments between elements. A
closing tag is written without white space, as the parser looks for that of a text in all that
follows.

## Main definitions

* `Element` — the elements.
* `Element.Skippable` — those that `skip_value` knows.
* `BetweenPairs` — the places between the pairs of a file.

## Main results

* `ignored_iff` — the pairs that are ignored.
-/

namespace Asteros.Launchd.PropertyList

open Libc Reader

/-! ## Elements -/

/-- White space and comments. A comment ends at the first `-->` behind its `<!`. -/
inductive IsGap : List UInt8 → Prop
  | nil : IsGap []
  | blank {b : UInt8} {g : List UInt8} : isWs b = true → IsGap g → IsGap (b :: g)
  | comment {body g : List UInt8} : 0 ∉ body →
      strstr (ascii "-->") (ascii "<!--" ++ body ++ ascii "-->") =
        some (ascii "<!--" ++ body, ascii "-->") →
      IsGap g → IsGap (ascii "<!--" ++ body ++ (ascii "-->" ++ g))

/-- White space and comments between elements. -/
abbrev Gap := { g : List UInt8 // IsGap g }

/-- White space in a tag. -/
abbrev Pad := { s : List UInt8 // ∀ b ∈ s, isWs b = true }

/-- The elements with text. -/
inductive TextKind where
  | string
  | integer
  | real
  | date
  | data
  deriving DecidableEq

/-- The name of an element with text. -/
def TextKind.name : TextKind → List UInt8
  | .string => ascii "string"
  | .integer => ascii "integer"
  | .real => ascii "real"
  | .date => ascii "date"
  | .data => ascii "data"

/-- The kinds of elements. -/
inductive Kind where
  | text (kind : TextKind)
  | boolean (b : Bool)
  | array
  | dict
  deriving DecidableEq

/-- The name of an element. -/
def Kind.name : Kind → List UInt8
  | .text kind => kind.name
  | .boolean b => ascii (if b then "true" else "false")
  | .array => ascii "array"
  | .dict => ascii "dict"

/-- A tag that opens an element, or that is all of it. -/
def tag (name pad : List UInt8) (whole : Bool) : List UInt8 :=
  byte '<' :: (name ++ (pad ++ if whole then ascii "/>" else ascii ">"))

/-- A tag that closes an element. -/
def closeTag (name : List UInt8) : List UInt8 := ascii "</" ++ (name ++ ascii ">")

/-- A text before its closing tag, which does not occur in it. -/
structure Body (name : List UInt8) where
  bytes : List UInt8
  nulFree : 0 ∉ bytes
  ends : strstr (closeTag name) (bytes ++ closeTag name) = some (bytes, closeTag name)

/-- A key. -/
inductive Key where
  | paired (pad : Pad) (body : Body (ascii "key"))
  | empty (pad : Pad)

/-- An element. -/
inductive Element where
  | text (kind : TextKind) (pad : Pad) (body : Body kind.name)
  | boolean (b : Bool) (pad : Pad)
  | array (pad : Pad) (slots : List (Gap × Element)) (tail : Gap)
  | dict (pad : Pad) (members : List (Gap × Key × Gap × Element)) (tail : Gap)
  /-- An element without content, whose only tag is `<…/>`. -/
  | empty (kind : Kind) (pad : Pad)

/-- The text of a key in the file. -/
def Key.bytes : Key → List UInt8
  | .paired pad body => tag (ascii "key") pad false ++ (body.bytes ++ closeTag (ascii "key"))
  | .empty pad => tag (ascii "key") pad true

/-- The key. -/
def Key.name : Key → List UInt8
  | .paired _ body => body.bytes
  | .empty _ => []

/-- The tag of the key is that of the parser. -/
def Key.Plain : Key → Prop
  | .paired pad _ => pad.1 = []
  | .empty _ => False

namespace Element

mutual
/-- The text of an element. -/
def bytes : Element → List UInt8
  | .text kind pad body => tag kind.name pad false ++ (body.bytes ++ closeTag kind.name)
  | .boolean b pad =>
    tag (Kind.boolean b).name pad false ++ closeTag (Kind.boolean b).name
  | .array pad slots tail =>
    tag Kind.array.name pad false ++ (slotsBytes slots ++ (tail ++ closeTag Kind.array.name))
  | .dict pad members tail =>
    tag Kind.dict.name pad false ++ (membersBytes members ++ (tail ++ closeTag Kind.dict.name))
  | .empty kind pad => tag kind.name pad true

/-- The text of the elements of an array. -/
def slotsBytes : List (Gap × Element) → List UInt8
  | [] => []
  | (gap, e) :: slots => gap ++ (bytes e ++ slotsBytes slots)

/-- The text of the pairs of a dictionary. -/
def membersBytes : List (Gap × Key × Gap × Element) → List UInt8
  | [] => []
  | (lead, key, gap, e) :: members =>
    lead ++ (key.bytes ++ (gap ++ (bytes e ++ membersBytes members)))
end

mutual
/-- `skip_value` knows the element: a string, an integer, an array or a dictionary with a closing
tag, or a boolean without, with no white space in opening tags. -/
def Skippable : Element → Prop
  | .text kind pad _ => pad.1 = [] ∧ (kind = .string ∨ kind = .integer)
  | .boolean _ _ => False
  | .array pad slots _ => pad.1 = [] ∧ SlotsSkippable slots
  | .dict pad members _ => pad.1 = [] ∧ MembersSkippable members
  | .empty kind pad => pad.1 = [] ∧ ∃ b, kind = .boolean b

/-- It knows the elements of an array. -/
def SlotsSkippable : List (Gap × Element) → Prop
  | [] => True
  | (_, e) :: slots => Skippable e ∧ SlotsSkippable slots

/-- It knows the pairs of a dictionary. -/
def MembersSkippable : List (Gap × Key × Gap × Element) → Prop
  | [] => True
  | (_, key, _, e) :: members => (key.Plain ∧ Skippable e) ∧ MembersSkippable members
end

/-- A dictionary. -/
def IsDict : Element → Prop
  | .dict _ _ _ => True
  | .empty kind _ => kind = .dict
  | _ => False

/-- **Induction over elements**: a property of all elements in a container is one of the
container. -/
lemma elementInduction {P : Element → Prop} (text : ∀ kind pad body, P (.text kind pad body))
    (boolean : ∀ b pad, P (.boolean b pad))
    (array : ∀ pad slots tail, (∀ s ∈ slots, P s.2) → P (.array pad slots tail))
    (dict : ∀ pad members tail, (∀ m ∈ members, P m.2.2.2) → P (.dict pad members tail))
    (empty : ∀ kind pad, P (.empty kind pad)) (e : Element) : P e := by
  refine @Element.rec P (fun slots => ∀ s ∈ slots, P s.2) (fun members => ∀ m ∈ members, P m.2.2.2)
    (fun s => P s.2) (fun m => P m.2.2.2) (fun m => P m.2.2) text boolean array dict empty
    (List.forall_mem_nil _) (fun _ _ h hs => List.forall_mem_cons.mpr ⟨h, hs⟩)
    (List.forall_mem_nil _) (fun _ _ h hs => List.forall_mem_cons.mpr ⟨h, hs⟩)
    (fun _ _ h => h) (fun _ _ h => h) (fun _ _ h => h) e

end Element

/-! ## Tags in the file -/

/-- White space and comments are skipped. -/
lemma skipWs_gap {g : List UInt8} (hg : IsGap g) (s : Cursor) : skipWs (g ++ s) = skipWs s := by
  induction hg with
  | nil => rfl
  | @blank b g hb _ ih =>
    have hblank : ∀ b' ∈ [b], isWs b' = true := by
      simpa using hb
    rw [← ih]
    exact skipWs_blank hblank (g ++ s)
  | @comment body g _ hend _ ih =>
    have hskip := @skipWs_comment (ascii "<!--" ++ body) []
      (by rw [List.append_assoc]; exact isPrefixOf_append_self _ _) (by simpa using hend) (g ++ s)
    rw [← ih, ← hskip]
    simp only [List.append_assoc]

/-- A character of a name. -/
def isLetter (b : UInt8) : Bool := byte 'a' ≤ b && b ≤ byte 'z'

/-- The names are words. -/
lemma isLetter_name (kind : Kind) : kind.name ≠ [] ∧ ∀ b ∈ kind.name, isLetter b = true := by
  cases kind with
  | text kind => cases kind <;> decide
  | boolean b => cases b <;> decide
  | array => decide
  | dict => decide

/-- A character that differs, or a later one. -/
lemma mismatch_cons (a b : UInt8) (lit s : List UInt8) :
    Mismatch (a :: lit) (b :: s) = (a != b || Mismatch lit s) := rfl

/-- Words that differ, or what is behind them. -/
lemma mismatch_word {name name' s s' : List UInt8} {b b' : UInt8}
    (hname : ∀ c ∈ name, isLetter c = true) (hname' : ∀ c ∈ name', isLetter c = true)
    (hb : isLetter b = false) (hb' : isLetter b' = false)
    (h : name = name' → Mismatch (b' :: s') (b :: s) = true) :
    Mismatch (name' ++ b' :: s') (name ++ b :: s) = true := by
  have hdiffer : ∀ c c' : UInt8, isLetter c = true → isLetter c' = false → c ≠ c' := by
    rintro c c' hc hc' rfl
    rw [hc] at hc'
    cases hc'
  induction name' generalizing name with
  | nil =>
    cases name with
    | nil => exact h rfl
    | cons c name =>
      have hne := (hdiffer c b' (hname c List.mem_cons_self) hb').symm
      rw [List.nil_append, List.cons_append, mismatch_cons, bne_iff_ne.mpr hne, Bool.true_or]
  | cons c' name' ih =>
    obtain ⟨hc', hrest'⟩ := List.forall_mem_cons.mp hname'
    cases name with
    | nil =>
      have hne := hdiffer c' b hc' hb
      rw [List.nil_append, List.cons_append, mismatch_cons, bne_iff_ne.mpr hne, Bool.true_or]
    | cons c name =>
      obtain ⟨-, hrest⟩ := List.forall_mem_cons.mp hname
      rw [List.cons_append, List.cons_append, mismatch_cons]
      by_cases hc : c' = c
      · subst hc
        rw [ih hrest hrest' fun heq => h (by rw [heq]), Bool.or_true]
      · rw [bne_iff_ne.mpr hc, Bool.true_or]

/-- White space is no part of a name, and ends no tag. -/
lemma isWs_cases {b : UInt8} (h : isWs b = true) :
    isLetter b = false ∧ b ≠ byte '>' ∧ b ≠ byte '/' := by
  simp only [isWs, Bool.or_eq_true, beq_iff_eq] at h
  rcases h with ((rfl | rfl) | rfl) | rfl <;> decide

/-- A tag with white space in it, of another name or of another form differs from that of the
parser. -/
lemma mismatch_tag {name name' pad : List UInt8} {whole whole' : Bool}
    (hname : ∀ b ∈ name, isLetter b = true) (hname' : ∀ b ∈ name', isLetter b = true)
    (hpad : ∀ b ∈ pad, isWs b = true) (hne : ¬(pad = [] ∧ name = name' ∧ whole = whole')) :
    Mismatch (tag name' [] whole') (tag name pad whole) = true := by
  obtain ⟨b', s', hend', hb'⟩ : ∃ b' s', (if whole' then ascii "/>" else ascii ">") = b' :: s' ∧
      (b' = byte '/' ∨ b' = byte '>') := by
    cases whole' with
    | true => exact ⟨_, _, rfl, .inl rfl⟩
    | false => exact ⟨_, _, rfl, .inr rfl⟩
  have hletter' : isLetter b' = false := by
    rcases hb' with rfl | rfl <;> decide
  rw [tag, tag, mismatch_cons, bne_self_eq_false, Bool.false_or, List.nil_append, hend']
  cases pad with
  | nil =>
    obtain ⟨b, s, hend, hb⟩ : ∃ b s, (if whole then ascii "/>" else ascii ">") = b :: s ∧
        isLetter b = false := by
      cases whole with
      | true => exact ⟨_, _, rfl, by decide⟩
      | false => exact ⟨_, _, rfl, by decide⟩
    rw [List.nil_append, hend]
    refine mismatch_word hname hname' hb hletter' fun heq => ?_
    rw [← hend, ← hend']
    cases whole <;> cases whole' <;> first | decide | exact absurd ⟨rfl, heq, rfl⟩ hne
  | cons b pad =>
    obtain ⟨hletter, hgt, hslash⟩ := isWs_cases (hpad b List.mem_cons_self)
    rw [List.cons_append]
    refine mismatch_word hname hname' hletter hletter' fun _ => ?_
    have hbb : b' ≠ b := by
      rcases hb' with rfl | rfl
      · exact hslash.symm
      · exact hgt.symm
    rw [mismatch_cons, bne_iff_ne.mpr hbb, Bool.true_or]

/-- A tag is no comment, and closes nothing. -/
lemma tag_cases {name pad : List UInt8} {whole : Bool} (hne : name ≠ [])
    (hname : ∀ b ∈ name, isLetter b = true) :
    IsTag (tag name pad whole) = true ∧
      ∀ closing, Mismatch (closeTag closing) (tag name pad whole) = true := by
  obtain ⟨b, name, rfl⟩ := List.exists_cons_of_ne_nil hne
  have hb := hname b List.mem_cons_self
  have hbang : b ≠ byte '!' := by
    rintro rfl
    exact absurd hb (by decide)
  have hslash : byte '/' ≠ b := by
    rintro rfl
    exact absurd hb (by decide)
  refine ⟨?_, fun closing => ?_⟩
  · simp [tag, IsTag, hbang]
  · have hclose : closeTag closing = byte '<' :: byte '/' :: (closing ++ ascii ">") := rfl
    rw [hclose, tag, List.cons_append, mismatch_cons, mismatch_cons, bne_iff_ne.mpr hslash,
      Bool.true_or, Bool.or_true]

/-- **A tag in the file is the parser's**, or it is not found. -/
lemma consume_tag {g name pad : List UInt8} (hg : IsGap g) (hne : name ≠ [])
    (hname : ∀ b ∈ name, isLetter b = true) (hpad : ∀ b ∈ pad, isWs b = true) (whole : Bool)
    (c : List UInt8) :
    (pad = [] → consume (g ++ (tag name pad whole ++ c)) (tag name [] whole) = (true, c)) ∧
      ∀ name' whole', (∀ b ∈ name', isLetter b = true) →
        ¬(pad = [] ∧ name = name' ∧ whole = whole') →
        (consume (g ++ (tag name pad whole ++ c)) (tag name' [] whole')).1 = false := by
  have hskip : skipWs (g ++ (tag name pad whole ++ c)) = tag name pad whole ++ c := by
    rw [skipWs_gap hg, skipWs_tag (tag_cases hne hname).1]
  refine ⟨?_, fun name' whole' hname' hdiff => ?_⟩
  · rintro rfl
    exact consume_of_skipWs hskip
  · rw [consume, hskip]
    simp [isPrefixOf_append_of_mismatch (mismatch_tag hname hname' hpad hdiff)]

/-- A closing tag is not found where another tag is. -/
lemma consume_closeTag_of_tag {g name pad : List UInt8} (hg : IsGap g) (hne : name ≠ [])
    (hname : ∀ b ∈ name, isLetter b = true) (whole : Bool) (closing c : List UInt8) :
    (consume (g ++ (tag name pad whole ++ c)) (closeTag closing)).1 = false := by
  obtain ⟨htag, hclose⟩ := @tag_cases name pad whole hne hname
  rw [consume, skipWs_gap hg, skipWs_tag htag]
  simp [isPrefixOf_append_of_mismatch (hclose closing)]

/-- A closing tag is found behind white space and comments. -/
lemma consume_closeTag {g closing : List UInt8} (hg : IsGap g) (c : List UInt8) :
    consume (g ++ (closeTag closing ++ c)) (closeTag closing) = (true, c) := by
  have htag : IsTag (closeTag closing) = true := by
    have hclose : closeTag closing = byte '<' :: byte '/' :: (closing ++ ascii ">") := rfl
    rw [hclose]
    rfl
  exact consume_of_skipWs (by rw [skipWs_gap hg, skipWs_tag htag])

/-- A text is read up to its closing tag. -/
lemma textUntil_body {name : List UInt8} (body : Body name) (c : List UInt8) :
    textUntil (body.bytes ++ (closeTag name ++ c)) (closeTag name) = some (body.bytes, c) := by
  have hends : strstr (closeTag name) (body.bytes ++ (closeTag name ++ [])) =
      some (body.bytes, closeTag name ++ []) := by
    rw [List.append_nil]
    exact body.ends
  have hne : closeTag name ≠ [] := List.cons_ne_nil _ _
  rw [textUntil, strstr_append_right hne hends]
  simp

/-! ## What is skipped -/

/-- The names of the tags that `skip_value` knows, and whether they are whole elements. -/
def knownTags : List (List UInt8 × Bool) :=
  [((Kind.boolean true).name, true), ((Kind.boolean false).name, true),
    (TextKind.string.name, false), (TextKind.integer.name, false), (Kind.array.name, false),
    (Kind.dict.name, false)]

/-- Another tag is not skipped. -/
lemma skipValue_unknown {g name pad : List UInt8} {whole : Bool} (hg : IsGap g) (hne : name ≠ [])
    (hname : ∀ b ∈ name, isLetter b = true) (hpad : ∀ b ∈ pad, isWs b = true)
    (h : ¬(pad = [] ∧ (name, whole) ∈ knownTags)) (fuel : ℕ) (c : List UInt8) :
    skipValue fuel (g ++ (tag name pad whole ++ c)) = none := by
  have hknown : ∀ t ∈ knownTags, ∀ b ∈ t.1, isLetter b = true := by decide
  have htags : skipTags = knownTags.map fun t => tag t.1 [] t.2 := by
    rw [skipTags]
    repeat rw [ascii_ofList]
    decide
  rw [Option.eq_none_iff_forall_not_mem]
  intro r hr
  obtain ⟨tag', hmem, hfound⟩ := (readsTag_skipValue fuel).opens _ r hr
  rw [htags] at hmem
  obtain ⟨t, ht, rfl⟩ := List.mem_map.mp hmem
  have hnot := (consume_tag hg hne hname hpad whole c).2 t.1 t.2 (hknown t ht) (by
    rintro ⟨hnil, rfl, rfl⟩
    exact h ⟨hnil, ht⟩)
  rw [hnot] at hfound
  cases hfound

/-- What `skip_value` does with an element, whatever follows it. -/
def Decided (e : Element) : Prop := ∀ (g c : List UInt8) (fuel : ℕ), IsGap g →
  e.bytes.length < fuel →
    (e.Skippable → skipValue fuel (g ++ (e.bytes ++ c)) = some ((), c)) ∧
      (¬e.Skippable → skipValue fuel (g ++ (e.bytes ++ c)) = none)

/-- A text. -/
lemma decided_text (kind : TextKind) (pad : Pad) (body : Body kind.name) :
    Decided (.text kind pad body) := by
  intro g c fuel hg hfuel
  obtain ⟨hne, hletter⟩ := isLetter_name (.text kind)
  have hbytes : (Element.text kind pad body).bytes ++ c = tag kind.name pad false ++
      (body.bytes ++ (closeTag kind.name ++ c)) := by
    rw [Element.bytes]
    simp only [List.append_assoc]
  rw [hbytes]
  refine ⟨?_, fun hnot => ?_⟩
  · rintro ⟨hpad, hkind⟩
    obtain ⟨fuel, rfl⟩ : ∃ k, fuel = k + 1 := ⟨fuel - 1, by omega⟩
    have hmem : (tag kind.name [] false, skipText (closeTag kind.name)) ∈
        skipCases (skipValue fuel) := by
      rcases hkind with rfl | rfl
      · have htag : tag TextKind.string.name [] false = ascii "<string>" := by decide
        have hclose : closeTag TextKind.string.name = ascii "</string>" := by decide
        simp [skipCases, htag, hclose]
      · have htag : tag TextKind.integer.name [] false = ascii "<integer>" := by decide
        have hclose : closeTag TextKind.integer.name = ascii "</integer>" := by decide
        simp [skipCases, htag, hclose]
    have hfound : consume (g ++ (tag kind.name pad false ++ (body.bytes ++
        (closeTag kind.name ++ c)))) (tag kind.name [] false) = (true, _) :=
      (consume_tag hg hne hletter pad.2 false _).1 hpad
    rw [skipValue_succ hmem hfound, skipText, textUntil_body]
    rfl
  · refine skipValue_unknown hg hne hletter pad.2 (fun h => hnot ⟨h.1, ?_⟩) fuel _
    have hmem := h.2
    revert hmem
    clear hbytes hfuel hnot h body
    cases kind <;> decide

/-- A boolean with a closing tag. -/
lemma decided_boolean (b : Bool) (pad : Pad) : Decided (.boolean b pad) := by
  intro g c fuel hg hfuel
  obtain ⟨hne, hletter⟩ := isLetter_name (.boolean b)
  refine ⟨fun h => h.elim, fun _ => ?_⟩
  have hbytes : (Element.boolean b pad).bytes ++ c = tag (Kind.boolean b).name pad false ++
      (closeTag (Kind.boolean b).name ++ c) := by
    rw [Element.bytes]
    simp only [List.append_assoc]
  rw [hbytes]
  refine skipValue_unknown hg hne hletter pad.2 (fun h => ?_) fuel _
  have hmem := h.2
  revert hmem
  clear hbytes hfuel h
  cases b <;> decide

/-- An element without content. -/
lemma decided_empty (kind : Kind) (pad : Pad) : Decided (.empty kind pad) := by
  intro g c fuel hg hfuel
  obtain ⟨hne, hletter⟩ := isLetter_name kind
  rw [Element.bytes]
  refine ⟨?_, fun hnot => ?_⟩
  · rintro ⟨hpad, b, rfl⟩
    obtain ⟨fuel, rfl⟩ : ∃ k, fuel = k + 1 := ⟨fuel - 1, by omega⟩
    have hmem : (tag (Kind.boolean b).name [] true, fun p => some ((), p)) ∈
        skipCases (skipValue fuel) := by
      cases b with
      | true =>
        have htag : tag (Kind.boolean true).name [] true = ascii "<true/>" := by decide
        simp [skipCases, htag]
      | false =>
        have htag : tag (Kind.boolean false).name [] true = ascii "<false/>" := by decide
        simp [skipCases, htag]
    rw [skipValue_succ hmem ((consume_tag hg hne hletter pad.2 true _).1 hpad)]
  · refine skipValue_unknown hg hne hletter pad.2 (fun h => hnot ⟨h.1, ?_⟩) fuel _
    have hmem := h.2
    revert hmem
    clear hfuel hnot h
    cases kind with
    | text kind => cases kind <;> decide
    | boolean b => exact fun _ => ⟨b, rfl⟩
    | array => decide
    | dict => decide

/-- An element starts with its tag. -/
lemma exists_tag (e : Element) :
    ∃ kind pad whole c, e.bytes = tag (Kind.name kind) pad whole ++ c := by
  cases e with
  | text kind pad body => exact ⟨.text kind, pad, false, _, rfl⟩
  | boolean b pad => exact ⟨.boolean b, pad, false, _, rfl⟩
  | array pad slots tail => exact ⟨.array, pad, false, _, rfl⟩
  | dict pad members tail => exact ⟨.dict, pad, false, _, rfl⟩
  | empty kind pad => exact ⟨kind, pad, true, [], (List.append_nil _).symm⟩

/-- A closing tag is not found where an element is. -/
lemma consume_closeTag_of_element {g : List UInt8} (hg : IsGap g) (e : Element)
    (closing c : List UInt8) : (consume (g ++ (e.bytes ++ c)) (closeTag closing)).1 = false := by
  obtain ⟨kind, pad, whole, s, hbytes⟩ := exists_tag e
  obtain ⟨hne, hletter⟩ := isLetter_name kind
  rw [hbytes, List.append_assoc]
  exact consume_closeTag_of_tag hg hne hletter whole closing _

/-- The elements of an array that is skipped. -/
lemma run_slots {slots : List (Gap × Element)} (h : ∀ s ∈ slots, Decided s.2) (tail : Gap)
    {fuel : ℕ} (hfuel : (Element.slotsBytes slots).length < fuel) (c : List UInt8) :
    (Element.SlotsSkippable slots →
      run (consume · (closeTag Kind.array.name)) (fun _ => skipValue fuel) ()
        (Element.slotsBytes slots ++ (tail.1 ++ (closeTag Kind.array.name ++ c))) = some ((), c)) ∧
      (¬Element.SlotsSkippable slots →
        run (consume · (closeTag Kind.array.name)) (fun _ => skipValue fuel) ()
          (Element.slotsBytes slots ++ (tail.1 ++ (closeTag Kind.array.name ++ c))) = none) := by
  have hloop := loopable_skipArray (readsTag_skipValue fuel)
  have hclose : ascii "</array>" = closeTag Kind.array.name := by decide
  rw [hclose] at hloop
  induction slots with
  | nil =>
    refine ⟨fun _ => ?_, fun h => absurd trivial h⟩
    rw [hloop.run_eq, Element.slotsBytes, List.nil_append, consume_closeTag tail.2, if_pos rfl]
  | cons slot slots ih =>
    obtain ⟨gap, e⟩ := slot
    obtain ⟨he, hslots⟩ := List.forall_mem_cons.mp h
    rw [Element.slotsBytes, List.length_append, List.length_append] at hfuel
    obtain ⟨hskip, hnone⟩ := he gap (Element.slotsBytes slots ++
      (tail.1 ++ (closeTag Kind.array.name ++ c))) fuel gap.2 (show e.bytes.length < fuel by omega)
    have ih' := ih hslots (by omega)
    have hopen := consume_closeTag_of_element gap.2 e Kind.array.name (Element.slotsBytes slots ++
      (tail.1 ++ (closeTag Kind.array.name ++ c)))
    rw [Element.slotsBytes, Element.SlotsSkippable]
    simp only [List.append_assoc]
    rw [hloop.run_eq, hopen, if_neg Bool.false_ne_true]
    by_cases hfirst : e.Skippable
    · rw [hskip hfirst, Option.bind_some]
      refine ⟨fun hall => ih'.1 hall.2, fun hnot => ih'.2 fun hrest => hnot ⟨hfirst, hrest⟩⟩
    · rw [hnone hfirst]
      exact ⟨fun hall => absurd hall.1 hfirst, fun _ => rfl⟩

/-- An array. -/
lemma decided_array (pad : Pad) {slots : List (Gap × Element)} (h : ∀ s ∈ slots, Decided s.2)
    (tail : Gap) : Decided (.array pad slots tail) := by
  intro g c fuel hg hfuel
  obtain ⟨hne, hletter⟩ := isLetter_name .array
  have hbytes : (Element.array pad slots tail).bytes ++ c = tag Kind.array.name pad false ++
      (Element.slotsBytes slots ++ (tail.1 ++ (closeTag Kind.array.name ++ c))) := by
    rw [Element.bytes]
    simp only [List.append_assoc]
  obtain ⟨fuel, rfl⟩ : ∃ k, fuel = k + 1 := ⟨fuel - 1, by omega⟩
  rw [hbytes]
  rw [Element.bytes, List.length_append, List.length_append] at hfuel
  by_cases hpad : pad.1 = []
  · have htag : tag Kind.array.name [] false = ascii "<array>" := by decide
    have hclose : ascii "</array>" = closeTag Kind.array.name := by decide
    have hmem : (tag Kind.array.name [] false,
        run (consume · (closeTag Kind.array.name)) (fun _ => skipValue fuel) ()) ∈
          skipCases (skipValue fuel) := by
      simp [skipCases, htag, hclose]
    have hpos : 0 < (tag Kind.array.name pad false).length := by simp [tag]
    have hlt : (Element.slotsBytes slots).length < fuel := by omega
    obtain ⟨hskip, hnone⟩ := run_slots h tail hlt c
    rw [skipValue_succ hmem ((consume_tag hg hne hletter pad.2 false _).1 hpad)]
    exact ⟨fun hall => hskip hall.2, fun hnot => hnone fun hall => hnot ⟨hpad, hall⟩⟩
  · refine ⟨fun hall => absurd hall.1 hpad, fun _ => ?_⟩
    exact skipValue_unknown hg hne hletter pad.2 (fun h => hpad h.1) _ _

/-- A key is read, or it is not the parser's. -/
lemma parseKey_key {g : List UInt8} (hg : IsGap g) (key : Key) (c : List UInt8) :
    (key.Plain → parseKey (g ++ (key.bytes ++ c)) = some (key.name.take 127, c)) ∧
      (¬key.Plain → parseKey (g ++ (key.bytes ++ c)) = none) := by
  have hletter : ∀ b ∈ ascii "key", isLetter b = true := by decide
  have hne : ascii "key" ≠ [] := by decide
  have htag : ascii "<key>" = tag (ascii "key") [] false := by decide
  have hclose : ascii "</key>" = closeTag (ascii "key") := by decide
  have hnone : ∀ p, (consume p (tag (ascii "key") [] false)).1 = false → parseKey p = none := by
    intro p hp
    rw [parseKey, choose_cons, htag, hp, if_neg Bool.false_ne_true]
    rfl
  cases key with
  | paired pad body =>
    have hbytes : (Key.paired pad body).bytes ++ c = tag (ascii "key") pad false ++
        (body.bytes ++ (closeTag (ascii "key") ++ c)) := by
      rw [Key.bytes]
      simp only [List.append_assoc]
    rw [hbytes]
    have htags := consume_tag hg hne hletter pad.2 false
      (body.bytes ++ (closeTag (ascii "key") ++ c))
    refine ⟨fun hpad => ?_, fun hpad => ?_⟩
    · rw [parseKey, choose_cons, htag, hclose, htags.1 hpad, if_pos rfl, textUntil_body]
      rfl
    · exact hnone _ (htags.2 _ _ hletter fun h => hpad h.1)
  | empty pad =>
    refine ⟨fun h => h.elim, fun _ => hnone _ ?_⟩
    rw [Key.bytes]
    exact (consume_tag hg hne hletter pad.2 true c).2 _ _ hletter (by simp)

/-- A closing tag is not found where a key is. -/
lemma consume_closeTag_of_key {g : List UInt8} (hg : IsGap g) (key : Key)
    (closing c : List UInt8) : (consume (g ++ (key.bytes ++ c)) (closeTag closing)).1 = false := by
  have hletter : ∀ b ∈ ascii "key", isLetter b = true := by decide
  have hne : ascii "key" ≠ [] := by decide
  cases key with
  | paired pad body =>
    rw [Key.bytes, List.append_assoc]
    exact consume_closeTag_of_tag hg hne hletter false closing _
  | empty pad => exact consume_closeTag_of_tag hg hne hletter true closing c

/-- The pairs of a dictionary that is skipped. -/
lemma run_members {members : List (Gap × Key × Gap × Element)}
    (h : ∀ m ∈ members, Decided m.2.2.2) (tail : Gap) {fuel : ℕ}
    (hfuel : (Element.membersBytes members).length < fuel) (c : List UInt8) :
    (Element.MembersSkippable members →
      run (consume · (closeTag Kind.dict.name))
        (fun _ p => (parseKey p).bind fun r => skipValue fuel r.2) ()
        (Element.membersBytes members ++ (tail.1 ++ (closeTag Kind.dict.name ++ c))) =
          some ((), c)) ∧
      (¬Element.MembersSkippable members →
        run (consume · (closeTag Kind.dict.name))
          (fun _ p => (parseKey p).bind fun r => skipValue fuel r.2) ()
          (Element.membersBytes members ++ (tail.1 ++ (closeTag Kind.dict.name ++ c))) = none) := by
  have hloop := loopable_skipDict (readsTag_skipValue fuel)
  have hclose : ascii "</dict>" = closeTag Kind.dict.name := by decide
  rw [hclose] at hloop
  induction members with
  | nil =>
    refine ⟨fun _ => ?_, fun h => absurd trivial h⟩
    rw [hloop.run_eq, Element.membersBytes, List.nil_append, consume_closeTag tail.2, if_pos rfl]
  | cons member members ih =>
    obtain ⟨lead, key, gap, e⟩ := member
    obtain ⟨he, hmembers⟩ := List.forall_mem_cons.mp h
    rw [Element.membersBytes, List.length_append, List.length_append, List.length_append,
      List.length_append] at hfuel
    have ih' := ih hmembers (by omega)
    generalize hrest : Element.membersBytes members ++
      (tail.1 ++ (closeTag Kind.dict.name ++ c)) = rest at *
    obtain ⟨hskip, hnone⟩ := he gap rest fuel gap.2 (show e.bytes.length < fuel by omega)
    obtain ⟨hkey, hnokey⟩ := parseKey_key lead.2 key (gap.1 ++ (e.bytes ++ rest))
    have hopen : (consume (lead.1 ++ (key.bytes ++ (gap.1 ++ (e.bytes ++ rest))))
        (closeTag Kind.dict.name)).1 = false :=
      consume_closeTag_of_key lead.2 key Kind.dict.name _
    rw [Element.membersBytes, Element.MembersSkippable]
    simp only [List.append_assoc, hrest]
    rw [hloop.run_eq, hopen, if_neg Bool.false_ne_true]
    by_cases hplain : key.Plain
    · rw [hkey hplain, Option.bind_some]
      by_cases hfirst : e.Skippable
      · rw [hskip hfirst, Option.bind_some]
        exact ⟨fun hall => ih'.1 hall.2,
          fun hnot => ih'.2 fun hall => hnot ⟨⟨hplain, hfirst⟩, hall⟩⟩
      · rw [hnone hfirst]
        exact ⟨fun hall => absurd hall.1.2 hfirst, fun _ => rfl⟩
    · rw [hnokey hplain]
      exact ⟨fun hall => absurd hall.1.1 hplain, fun _ => rfl⟩

/-- A dictionary. -/
lemma decided_dict (pad : Pad) {members : List (Gap × Key × Gap × Element)}
    (h : ∀ m ∈ members, Decided m.2.2.2) (tail : Gap) : Decided (.dict pad members tail) := by
  intro g c fuel hg hfuel
  obtain ⟨hne, hletter⟩ := isLetter_name .dict
  have hbytes : (Element.dict pad members tail).bytes ++ c = tag Kind.dict.name pad false ++
      (Element.membersBytes members ++ (tail.1 ++ (closeTag Kind.dict.name ++ c))) := by
    rw [Element.bytes]
    simp only [List.append_assoc]
  obtain ⟨fuel, rfl⟩ : ∃ k, fuel = k + 1 := ⟨fuel - 1, by omega⟩
  rw [hbytes]
  rw [Element.bytes, List.length_append, List.length_append] at hfuel
  by_cases hpad : pad.1 = []
  · have htag : tag Kind.dict.name [] false = ascii "<dict>" := by decide
    have hclose : ascii "</dict>" = closeTag Kind.dict.name := by decide
    have hmem : (tag Kind.dict.name [] false, run (consume · (closeTag Kind.dict.name))
        (fun _ p => (parseKey p).bind fun r => skipValue fuel r.2) ()) ∈
          skipCases (skipValue fuel) := by
      simp [skipCases, htag, hclose]
    have hpos : 0 < (tag Kind.dict.name pad false).length := by simp [tag]
    have hlt : (Element.membersBytes members).length < fuel := by omega
    obtain ⟨hskip, hnone⟩ := run_members h tail hlt c
    rw [skipValue_succ hmem ((consume_tag hg hne hletter pad.2 false _).1 hpad)]
    exact ⟨fun hall => hskip hall.2, fun hnot => hnone fun hall => hnot ⟨hpad, hall⟩⟩
  · refine ⟨fun hall => absurd hall.1 hpad, fun _ => ?_⟩
    exact skipValue_unknown hg hne hletter pad.2 (fun h => hpad h.1) _ _

/-- **What `skip_value` does with an element**: it skips it exactly if it knows it.

**Proof sketch.** Induction over the element. In a container the elements up to the first one that
it does not know are skipped, and at that one it gives up. -/
theorem decided (e : Element) : Decided e := by
  induction e using Element.elementInduction with
  | text kind pad body => exact decided_text kind pad body
  | boolean b pad => exact decided_boolean b pad
  | array pad slots tail ih => exact decided_array pad ih tail
  | dict pad members tail ih => exact decided_dict pad ih tail
  | empty kind pad => exact decided_empty kind pad

/-! ## A pair between others -/

/-- The keys that `plist_parse_daemon` knows. -/
def supportedKeys : List (List UInt8) :=
  [ascii "Label", ascii "ProgramArguments", ascii "RunAtLoad", ascii "KeepAlive",
    ascii "EnvironmentVariables", ascii "StandardOutPath", ascii "StandardErrorPath"]

/-- A pair of a key and a value, with what is around them. -/
structure Pair where
  lead : Gap
  key : Key
  gap : Gap
  value : Element
  trail : Gap

namespace Pair

/-- The text of the pair. -/
def bytes (pair : Pair) : List UInt8 :=
  pair.lead ++ (pair.key.bytes ++ (pair.gap ++ (pair.value.bytes ++ pair.trail)))

/-- The key is not supported, or the pair is a `KeepAlive` with a dictionary. -/
def Unsupported (pair : Pair) : Prop :=
  pair.key.name ∉ supportedKeys ∨ pair.key.name = ascii "KeepAlive" ∧ pair.value.IsDict

/-- The key is not supported, and `skip_value` knows the value. -/
def Ignorable (pair : Pair) : Prop :=
  pair.key.name ∉ supportedKeys ∧ pair.key.Plain ∧ pair.value.Skippable

end Pair

/-- The place between the two parts of a file is one where `plist_parse_daemon` looks for a key, but
for white space and comments. -/
def BetweenPairs (before after : List UInt8) : Prop :=
  0 ∉ before ∧ ∃ prolog p st gap, IsGap gap ∧
    strstr (ascii "<dict>") (CString.ofBytes (before ++ after)).bytes = some (prolog, p) ∧
    Reaches (consume · (ascii "</dict>")) daemonItem .start (p.drop 6) st
      (gap ++ (CString.ofBytes after).bytes)

/-- A dictionary is no boolean. -/
lemma parseBoolValue_dict {g : List UInt8} (hg : IsGap g) {e : Element} (h : e.IsDict)
    (c : List UInt8) : parseBoolValue (g ++ (e.bytes ++ c)) = none := by
  have htags : [ascii "<true/>", ascii "<false/>"] =
      [true, false].map fun b => tag (Kind.boolean b).name [] true := by decide
  obtain ⟨hne, hletter⟩ := isLetter_name .dict
  obtain ⟨pad, whole, s, hbytes⟩ : ∃ (pad : Pad) (whole : Bool) (s : List UInt8),
      e.bytes = tag Kind.dict.name pad whole ++ s := by
    cases e with
    | dict pad members tail => exact ⟨pad, false, _, rfl⟩
    | empty kind pad =>
      obtain rfl : kind = .dict := h
      exact ⟨pad, true, [], (List.append_nil _).symm⟩
    | _ => exact h.elim
  rw [Option.eq_none_iff_forall_not_mem]
  intro r hr
  obtain ⟨t, hmem, hfound⟩ := readsTag_parseBoolValue.opens _ r hr
  rw [htags] at hmem
  obtain ⟨b, -, rfl⟩ := List.mem_map.mp hmem
  have hnot := (consume_tag hg hne hletter pad.2 whole (s ++ c)).2 (Kind.boolean b).name true
    (isLetter_name (.boolean b)).2 (by
      rintro ⟨-, hname, -⟩
      revert hname
      cases b <;> decide)
  rw [hbytes, List.append_assoc, hnot] at hfound
  cases hfound

/-- A key that is too long for the array is still not supported. -/
lemma take_notMem_supportedKeys {name : List UInt8} (h : name ∉ supportedKeys) :
    name.take 127 ∉ supportedKeys := by
  intro hmem
  have hshort : ∀ key ∈ supportedKeys, key.length < 127 := by
    rw [supportedKeys]
    repeat rw [ascii_ofList]
    decide
  have hlt := hshort _ hmem
  rw [List.length_take] at hlt
  rw [List.take_of_length_le (by omega)] at hmem
  exact h hmem

/-- The value for a key that is not supported is skipped. -/
lemma daemonValue_of_notMem {key : List UInt8} (h : key ∉ supportedKeys) (st : State) (p : Cursor) :
    daemonValue st key p = (skipValue (p.length + 1) p).map fun r => (st, r.2) := by
  simp only [supportedKeys, List.mem_cons, List.not_mem_nil, or_false, not_or] at h
  obtain ⟨h₁, h₂, h₃, h₄, h₅, h₆, h₇⟩ := h
  rw [daemonValue, if_neg h₁, if_neg h₂, if_neg h₃, if_neg h₄, if_neg h₅, if_neg h₆, if_neg h₇]

/-- What is done with a pair. -/
lemma daemonItem_pair {pair : Pair} (hpair : pair.Unsupported) (st : State) (c : Cursor) :
    (pair.Ignorable → daemonItem st (pair.bytes ++ c) = some (st, pair.trail.1 ++ c)) ∧
      (¬pair.Ignorable → daemonItem st (pair.bytes ++ c) = none) := by
  have hbytes : pair.bytes ++ c = pair.lead.1 ++ (pair.key.bytes ++ (pair.gap.1 ++
      (pair.value.bytes ++ (pair.trail.1 ++ c)))) := by
    rw [Pair.bytes]
    simp only [List.append_assoc]
  obtain ⟨hkey, hnokey⟩ := parseKey_key pair.lead.2 pair.key
    (pair.gap.1 ++ (pair.value.bytes ++ (pair.trail.1 ++ c)))
  rw [hbytes, daemonItem]
  by_cases hplain : pair.key.Plain
  · rw [hkey hplain, Option.bind_some]
    rcases hpair with hname | ⟨hname, hdict⟩
    · obtain ⟨hskip, hnone⟩ := decided pair.value pair.gap.1 (pair.trail.1 ++ c)
        ((pair.gap.1 ++ (pair.value.bytes ++ (pair.trail.1 ++ c))).length + 1) pair.gap.2 (by
          rw [List.length_append, List.length_append]
          omega)
      rw [daemonValue_of_notMem (take_notMem_supportedKeys hname)]
      refine ⟨fun h => ?_, fun h => ?_⟩
      · rw [hskip h.2.2]
        rfl
      · rw [hnone fun hvalue => h ⟨hname, hplain, hvalue⟩]
        rfl
    · -- `KeepAlive` is a boolean to the parser
      have hmem : ascii "KeepAlive" ∈ supportedKeys := by decide
      have hvalue : daemonValue st (ascii "KeepAlive") (pair.gap.1 ++ (pair.value.bytes ++
          (pair.trail.1 ++ c))) = none := by
        rw [daemonValue, if_neg (by decide), if_neg (by decide), if_neg (by decide), if_pos rfl,
          parseBoolValue_dict pair.gap.2 hdict]
        rfl
      have htake : (ascii "KeepAlive").take 127 = ascii "KeepAlive" := by decide
      rw [hname, htake, hvalue]
      exact ⟨fun h => absurd (hname ▸ hmem) h.1, fun _ => rfl⟩
  · rw [hnokey hplain]
    exact ⟨fun h => absurd h.2.1 hplain, fun _ => rfl⟩

/-- White space and comments before a key do not matter. -/
lemma daemonLoop_gap {g : List UInt8} (hg : IsGap g) (st : State) (p : Cursor) :
    daemonLoop st (g ++ p) = daemonLoop st p := by
  have hskip : daemonItem st (g ++ p) = daemonItem st p := by
    rw [← (readsTag_daemonItem st).skip, skipWs_gap hg, (readsTag_daemonItem st).skip]
  have hconsume : consume (g ++ p) (ascii "</dict>") = consume p (ascii "</dict>") := by
    rw [consume, skipWs_gap hg, consume]
  rw [daemonLoop, loopable_daemonItem.run_eq, loopable_daemonItem.run_eq, hskip, hconsume]

/-- The loop goes over a pair that is ignored, and fails at any other. -/
lemma daemonLoop_pair {pair : Pair} (hpair : pair.Unsupported) (st : State) (c : Cursor) :
    (pair.Ignorable → daemonLoop st (pair.bytes ++ c) = daemonLoop st c) ∧
      (¬pair.Ignorable → daemonLoop st (pair.bytes ++ c) = none) := by
  have hclose : ascii "</dict>" = closeTag (ascii "dict") := by decide
  have hopen : (consume (pair.bytes ++ c) (ascii "</dict>")).1 = false := by
    rw [Pair.bytes, hclose, List.append_assoc, List.append_assoc]
    exact consume_closeTag_of_key pair.lead.2 pair.key _ _
  obtain ⟨hnext, hnone⟩ := daemonItem_pair hpair st c
  have hround : daemonLoop st (pair.bytes ++ c) =
      (daemonItem st (pair.bytes ++ c)).bind fun r => daemonLoop r.1 r.2 := by
    rw [daemonLoop, loopable_daemonItem.run_eq, hopen, if_neg Bool.false_ne_true]
  rw [hround]
  refine ⟨fun h => ?_, fun h => ?_⟩
  · rw [hnext h, Option.bind_some, daemonLoop_gap pair.trail.2]
  · rw [hnone h]
    rfl

/-- There is no NUL in white space and comments. -/
lemma nulFree_gap {g : List UInt8} (hg : IsGap g) : 0 ∉ g := by
  induction hg with
  | nil => exact List.not_mem_nil
  | blank hb _ ih =>
    rw [List.mem_cons, not_or]
    refine ⟨?_, ih⟩
    rintro rfl
    exact absurd hb (by decide)
  | comment hbody _ _ ih =>
    simp only [List.mem_append, not_or]
    exact ⟨⟨by decide, hbody⟩, by decide, ih⟩

/-- There is no NUL in tags. -/
lemma nulFree_tags {name : List UInt8} (hname : ∀ b ∈ name, isLetter b = true) :
    0 ∉ closeTag name ∧ ∀ (pad : Pad) (whole : Bool), 0 ∉ tag name pad whole := by
  have hfree : 0 ∉ name := fun h => absurd (hname 0 h) (by decide)
  refine ⟨?_, fun pad whole => ?_⟩
  · simp only [closeTag, List.mem_append, hfree, false_or]
    decide
  · have hpad : 0 ∉ pad.1 := fun h => absurd (pad.2 0 h) (by decide)
    simp only [tag, List.mem_cons, List.mem_append, hfree, hpad, false_or]
    cases whole <;> decide

/-- There is no NUL in a key. -/
lemma nulFree_key (key : Key) : 0 ∉ key.bytes := by
  obtain ⟨hclose, htag⟩ := nulFree_tags (show ∀ b ∈ ascii "key", isLetter b = true by decide)
  cases key with
  | paired pad body =>
    simp only [Key.bytes, List.mem_append, not_or]
    exact ⟨htag pad false, body.nulFree, hclose⟩
  | empty pad => exact htag pad true

/-- There is no NUL in the elements of an array. -/
lemma nulFree_slots {slots : List (Gap × Element)} (h : ∀ s ∈ slots, 0 ∉ s.2.bytes) :
    0 ∉ Element.slotsBytes slots := by
  induction slots with
  | nil => exact List.not_mem_nil
  | cons slot slots ih =>
    obtain ⟨gap, e⟩ := slot
    obtain ⟨he, hslots⟩ := List.forall_mem_cons.mp h
    simp only [Element.slotsBytes, List.mem_append, not_or]
    exact ⟨nulFree_gap gap.2, he, ih hslots⟩

/-- There is no NUL in the pairs of a dictionary. -/
lemma nulFree_members {members : List (Gap × Key × Gap × Element)}
    (h : ∀ m ∈ members, 0 ∉ m.2.2.2.bytes) : 0 ∉ Element.membersBytes members := by
  induction members with
  | nil => exact List.not_mem_nil
  | cons member members ih =>
    obtain ⟨lead, key, gap, e⟩ := member
    obtain ⟨he, hmembers⟩ := List.forall_mem_cons.mp h
    simp only [Element.membersBytes, List.mem_append, not_or]
    exact ⟨nulFree_gap lead.2, nulFree_key key, nulFree_gap gap.2, he, ih hmembers⟩

/-- There is no NUL in an element. -/
lemma nulFree_element (e : Element) : 0 ∉ e.bytes := by
  have hname := fun kind => nulFree_tags (isLetter_name kind).2
  induction e using Element.elementInduction with
  | text kind pad body =>
    simp only [Element.bytes, List.mem_append, not_or]
    exact ⟨(hname (.text kind)).2 pad false, body.nulFree, (hname (.text kind)).1⟩
  | boolean b pad =>
    simp only [Element.bytes, List.mem_append, not_or]
    exact ⟨(hname (.boolean b)).2 pad false, (hname (.boolean b)).1⟩
  | array pad slots tail ih =>
    simp only [Element.bytes, List.mem_append, not_or]
    exact ⟨(hname .array).2 pad false, nulFree_slots ih, nulFree_gap tail.2, (hname .array).1⟩
  | dict pad members tail ih =>
    simp only [Element.bytes, List.mem_append, not_or]
    exact ⟨(hname .dict).2 pad false, nulFree_members ih, nulFree_gap tail.2, (hname .dict).1⟩
  | empty kind pad => exact (hname kind).2 pad true

/-- There is no NUL in the text of a pair. -/
lemma nulFree_pair (pair : Pair) : 0 ∉ pair.bytes := by
  simp only [Pair.bytes, List.mem_append, not_or]
  exact ⟨nulFree_gap pair.lead.2, nulFree_key pair.key, nulFree_gap pair.gap.2,
    nulFree_element pair.value, nulFree_gap pair.trail.2⟩

/-- What is returned after the loop. -/
def outcome (r : State × Cursor) : Option DaemonConfig :=
  if r.1.haveLabel ∧ r.1.haveArgs then some r.1.cfg else none

/-- What is read of a file with something in a place between its pairs. -/
lemma plistParseDaemon_place {before after : List UInt8} (hplace : BetweenPairs before after) :
    ∃ st, ∀ c, 0 ∉ c → plistParseDaemon (some (before ++ (c ++ after))) =
      (daemonLoop st (c ++ (CString.ofBytes after).bytes)).bind outcome := by
  obtain ⟨hnul, prolog, p, st, gap, hgap, hroot, hreach⟩ := hplace
  refine ⟨st, fun c hc => ?_⟩
  obtain ⟨hcat, e, rfl⟩ := strstr_append_eq hroot
  obtain ⟨a, ha, hreaches⟩ := loopable_daemonItem.reaches_append hreach
  obtain rfl : e = a ++ (gap ++ (CString.ofBytes after).bytes) := ha
  rw [CString.bytes_ofBytes_append hnul] at hcat hroot
  -- the place is behind what the loop has read
  have hbefore : before = prolog ++ (ascii "<dict>" ++ (a ++ gap)) := by
    have hsame : before ++ (CString.ofBytes after).bytes =
        prolog ++ (ascii "<dict>" ++ (a ++ gap)) ++ (CString.ofBytes after).bytes := by
      rw [← hcat]
      simp only [List.append_assoc]
    exact List.append_cancel_right hsame
  have htext : (CString.ofBytes (before ++ (c ++ after))).bytes = prolog ++ (ascii "<dict>" ++
      (a ++ (gap ++ (c ++ (CString.ofBytes after).bytes)))) := by
    rw [CString.bytes_ofBytes_append hnul, CString.bytes_ofBytes_append hc, hbefore]
    simp only [List.append_assoc]
  have hloop : daemonLoop .start (a ++ (gap ++ (c ++ (CString.ofBytes after).bytes))) =
      daemonLoop st (c ++ (CString.ofBytes after).bytes) := by
    rw [daemonLoop, loopable_daemonItem.run_of_reaches (hreaches _)]
    exact daemonLoop_gap hgap st _
  have hfound := strstr_append_right (by decide) (hcat ▸ hroot)
    (a ++ (gap ++ (c ++ (CString.ofBytes after).bytes)))
  have hparse : plistParseDaemon (some (before ++ (c ++ after))) =
      (strstr (ascii "<dict>") (CString.ofBytes (before ++ (c ++ after))).bytes).bind fun r =>
        (daemonLoop .start (r.2.drop 6)).bind outcome := rfl
  rw [hparse, htext, hfound, Option.bind_some, ← hloop]
  rfl

/-- **The pairs that are ignored**: put between the pairs of a file that is accepted, a pair with a
key that is not supported, or a `KeepAlive` with a dictionary, changes nothing exactly if the key is
not supported and `skip_value` knows the value. -/
theorem ignored_iff {before after : List UInt8} {cfg : DaemonConfig}
    (haccept : plistParseDaemon (some (before ++ after)) = some cfg)
    (hplace : BetweenPairs before after) {pair : Pair} (hpair : pair.Unsupported) :
    plistParseDaemon (some (before ++ (pair.bytes ++ after))) = some cfg ↔ pair.Ignorable := by
  obtain ⟨st, hread⟩ := plistParseDaemon_place hplace
  have hwithout := hread [] List.not_mem_nil
  rw [List.nil_append, List.nil_append, haccept] at hwithout
  obtain ⟨hnext, hnone⟩ := daemonLoop_pair hpair st (CString.ofBytes after).bytes
  rw [hread _ (nulFree_pair pair)]
  constructor
  · intro h
    by_contra hnot
    rw [hnone hnot] at h
    cases h
  · intro h
    rw [hnext h, ← hwithout]

/-- The pairs of a small file. -/
def labelAndArguments : List UInt8 :=
  ascii ("<key>Label</key><string>a</string>" ++
    "<key>ProgramArguments</key><array><string>b</string></array></dict>")

/-- What is read of it. -/
def labelAndArgumentsConfig : DaemonConfig :=
  ⟨ascii "a", [ascii "b"], false, false, [], [], []⟩

/-- It is accepted. -/
lemma accepts_labelAndArguments :
    plistParseDaemon (some (ascii "<dict>" ++ labelAndArguments)) =
      some labelAndArgumentsConfig := by
  rw [labelAndArguments, ascii_append]
  repeat rw [ascii_ofList]
  decide +kernel

/-- A place in it is before the first pair. -/
lemma betweenPairs_labelAndArguments : BetweenPairs (ascii "<dict>") labelAndArguments := by
  have hfound : strstr (ascii "<dict>")
      (CString.ofBytes (ascii "<dict>" ++ labelAndArguments)).bytes =
        some ([], ascii "<dict>" ++ labelAndArguments) := by
    rw [labelAndArguments, ascii_append]
    repeat rw [ascii_ofList]
    decide
  refine ⟨by decide, [], ascii "<dict>" ++ labelAndArguments, .start, [], .nil, hfound, ?_⟩
  have hplace : (ascii "<dict>" ++ labelAndArguments).drop 6 =
      [] ++ (CString.ofBytes labelAndArguments).bytes := by
    rw [labelAndArguments, ascii_append]
    repeat rw [ascii_ofList]
    decide
  rw [hplace]
  exact .start

/-- No white space and no comments. -/
def noGap : Gap := ⟨[], .nil⟩

/-- No white space. -/
def noPad : Pad := ⟨[], nofun⟩

/-- The name of a user, which is ignored. -/
def userName : Pair where
  lead := noGap
  key := .paired noPad ⟨ascii "UserName", by decide, by decide⟩
  gap := noGap
  value := .text .string noPad ⟨ascii "root", by decide, by decide⟩
  trail := noGap

/-- It changes nothing. -/
theorem ignored_iff_userName :
    plistParseDaemon (some (ascii "<dict>" ++ (userName.bytes ++ labelAndArguments))) =
      some labelAndArgumentsConfig ↔ userName.Ignorable :=
  ignored_iff accepts_labelAndArguments betweenPairs_labelAndArguments (.inl (by decide))

/-- `KeepAlive` with a dictionary. -/
def keepAliveDict : Pair where
  lead := noGap
  key := .paired noPad ⟨ascii "KeepAlive", by decide, by decide⟩
  gap := noGap
  value := .dict noPad [(noGap, .paired noPad ⟨ascii "SuccessfulExit", by decide, by decide⟩, noGap,
    .empty (.boolean false) noPad)] noGap
  trail := noGap

/-- **A pair that is not ignored**: with a dictionary for `KeepAlive` the file is not accepted. -/
theorem not_ignored :
    ¬∀ (before after : List UInt8) (cfg : DaemonConfig),
      plistParseDaemon (some (before ++ after)) = some cfg → BetweenPairs before after →
        ∀ pair : Pair, pair.Unsupported →
          plistParseDaemon (some (before ++ (pair.bytes ++ after))) = some cfg := by
  intro h
  have hsame := h _ _ _ accepts_labelAndArguments betweenPairs_labelAndArguments keepAliveDict
    (.inr ⟨rfl, trivial⟩)
  have hnone : plistParseDaemon (some (ascii "<dict>" ++
      (keepAliveDict.bytes ++ labelAndArguments))) = none := by
    rw [labelAndArguments, ascii_append]
    repeat rw [ascii_ofList]
    decide +kernel
  rw [hnone] at hsame
  cases hsame

end Asteros.Launchd.PropertyList
