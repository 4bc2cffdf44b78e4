import Asteros.Foundation.FormatDouble
import Asteros.Foundation.Json.RoundTrip

set_option autoImplicit false

/-!
# Any graph as JSON

The writer on graphs in which any object can stand. `isValidJSONObject` looks at the root only. An
object that the writer does not know is written as nothing, and a key that is no string does not
answer `UTF8String`, at which the runtime aborts. The reader takes what was written exactly if there
is no such key, and such objects only stand alone in an array.

## Main definitions

* `Graph` — the graphs, and what is written for them.
* `Graph.Representable` — those whose text is a value.

## Main results

* `readsBack_iff` — the graphs whose data is accepted.
-/

namespace Asteros.Foundation.Json

open Asteros.Libc Asteros.CoreFoundation Asteros.Foundation.Json.Tree

variable {δ : Type}

/-! ## Graphs -/

/-- An object. A key is a string or some other object, and the keys of a dictionary are distinct, so
that the object for a key is the one that stands with it. -/
inductive Graph (δ : Type) where
  | null
  | boolean (b : Bool)
  | real (d : δ)
  | integer (v : BitVec 64)
  | string (s : List UInt8)
  | dictionary (entries : List (Option (List UInt8) × Graph δ))
  | array (values : List (Graph δ))
  /-- An object of another class. -/
  | other

/-- Why there is no text. -/
inductive Failure where
  /-- A fault of the code. -/
  | fault (f : Fault)
  /-- `abort`, as an object does not recognize a selector. -/
  | aborted

namespace Graph

/-- **Induction over graphs**: a property of every object in a container holds of the container. -/
lemma graphInduction {P : Graph δ → Prop} (null : P .null) (boolean : ∀ b, P (.boolean b))
    (real : ∀ d, P (.real d)) (integer : ∀ v, P (.integer v)) (string : ∀ s, P (.string s))
    (dictionary : ∀ es, (∀ e ∈ es, P e.2) → P (.dictionary es))
    (array : ∀ xs, (∀ x ∈ xs, P x) → P (.array xs)) (other : P .other) (o : Graph δ) : P o := by
  refine @Graph.rec δ P (fun es => ∀ e ∈ es, P e.2) (fun xs => ∀ x ∈ xs, P x) (fun e => P e.2)
    null boolean real integer string (fun es h => dictionary es h) (fun xs h => array xs h) other
    ?_ ?_ ?_ ?_ ?_ o
  · simp
  · intro e es he hes f hf
    rcases List.mem_cons.mp hf with rfl | hf
    · exact he
    · exact hes f hf
  · simp
  · intro x xs hx hxs y hy
    rcases List.mem_cons.mp hy with rfl | hy
    · exact hx
    · exact hxs y hy
  · exact fun _ _ h => h

/-- `appendJSONEscapedString` for a key. -/
def writeKey : Option (List UInt8) → Except Failure (List UInt8)
  | some s => (appendJSONEscapedString s).mapError .fault
  | none => .error .aborted

mutual
/-- `writeJSONValue`: what it appends. -/
def writeJSONValue (lib : Library δ) : Graph δ → Except Failure (List UInt8)
  | .null => .ok (ascii "null")
  | .boolean b => .ok (ascii (if b then "true" else "false"))
  | .real d => .ok (lib.formatDouble d).bytes
  | .integer v => (cfStringCreateWithFormatAndArguments longFormat [.word v]).mapError .fault
  | .string s => (appendJSONEscapedString s).mapError .fault
  | .dictionary entries => do
    let members ← writeJSONMembers lib entries
    .ok (byte '{' :: (List.intercalate (ascii ",") members ++ ascii "\x7d"))
  | .array values => do
    let texts ← writeJSONValues lib values
    .ok (byte '[' :: (List.intercalate (ascii ",") texts ++ ascii "]"))
  | .other => .ok []

/-- The loop over the keys of a dictionary: the members, between which commas go. -/
def writeJSONMembers (lib : Library δ) :
    List (Option (List UInt8) × Graph δ) → Except Failure (List (List UInt8))
  | [] => .ok []
  | (key, v) :: entries => do
    let name ← writeKey key
    let text ← writeJSONValue lib v
    let members ← writeJSONMembers lib entries
    .ok ((name ++ (byte ':' :: text)) :: members)

/-- The loop over the values of an array, between which commas go. -/
def writeJSONValues (lib : Library δ) : List (Graph δ) → Except Failure (List (List UInt8))
  | [] => .ok []
  | x :: xs => do
    let text ← writeJSONValue lib x
    let texts ← writeJSONValues lib xs
    .ok (text :: texts)
end

/-- `+isValidJSONObject:`. -/
def isValidJSONObject : Graph δ → Bool
  | .dictionary _ => true
  | .array _ => true
  | _ => false

/-- `+dataWithJSONObject:options:error:`; `none` is `nil`. -/
def dataWithJSONObject (lib : Library δ) (obj : Graph δ) :
    Except Failure (Option (List UInt8)) :=
  if !isValidJSONObject obj then .ok none
  else do
    let out ← writeJSONValue lib obj
    let data ← (dataUsingEncoding out).mapError .fault
    .ok (some data)

mutual
/-- Every key is a string, and an object of another class only stands alone in an array. -/
def Representable : Graph δ → Prop
  | .other => False
  | .array values => values = [.other] ∨ ValuesRepresentable values
  | .dictionary entries => EntriesRepresentable entries
  | _ => True

/-- So it is in the values of an array. -/
def ValuesRepresentable : List (Graph δ) → Prop
  | [] => True
  | x :: xs => Representable x ∧ ValuesRepresentable xs

/-- So it is in a dictionary. -/
def EntriesRepresentable : List (Option (List UInt8) × Graph δ) → Prop
  | [] => True
  | (key, v) :: entries => (key.isSome = true ∧ Representable v) ∧ EntriesRepresentable entries
end

/-- The values of an array, as a quantified statement. -/
lemma valuesRepresentable_iff (xs : List (Graph δ)) :
    ValuesRepresentable xs ↔ ∀ x ∈ xs, x.Representable := by
  induction xs with
  | nil => simp [ValuesRepresentable]
  | cons x xs ih => rw [ValuesRepresentable, ih, List.forall_mem_cons]

/-- A dictionary, as a quantified statement. -/
lemma entriesRepresentable_iff (es : List (Option (List UInt8) × Graph δ)) :
    EntriesRepresentable es ↔ ∀ e ∈ es, e.1.isSome = true ∧ e.2.Representable := by
  induction es with
  | nil => simp [EntriesRepresentable]
  | cons e es ih =>
    obtain ⟨key, v⟩ := e
    rw [EntriesRepresentable, ih, List.forall_mem_cons]

end Graph

/-! ## Texts of values -/

variable (lib : Library δ)

/-- The text is that of a value that the reader takes. -/
def IsValueText (text : List UInt8) : Prop := ∃ t : Tree, Follows readable t ∧ t.bytes = text

/-- The reader gives up on the text, whatever follows. -/
def Rejects (text : List UInt8) : Prop := ∀ (r : List UInt8) (fuel : ℕ), 3 * text.length ≤ fuel →
  parseJSONValue lib fuel (terminated (text ++ r)) = .ok none

/-- The reader gives up on what is read as a value: on nothing, if a comma or a bracket follows. -/
def Fails (text : List UInt8) : Prop := text = [] ∨ Starts text ∧ Rejects lib text

/-! ## Commas -/

/-- Texts with commas between them, up to one of them and from it on. -/
lemma intercalate_split (done rest : List (List UInt8)) (text : List UInt8) :
    List.intercalate (ascii ",") (done ++ text :: rest) =
      done.flatMap (· ++ ascii ",") ++ (text ++ rest.flatMap (ascii "," ++ ·)) := by
  have hrest : ∀ (text : List UInt8) (rest : List (List UInt8)),
      List.intercalate (ascii ",") (text :: rest) = text ++ rest.flatMap (ascii "," ++ ·) := by
    intro text rest
    induction rest generalizing text with
    | nil => simp
    | cons text' rest ih =>
      rw [List.intercalate_cons_cons, ih, List.flatMap_cons, List.append_assoc, List.append_assoc]
  induction done with
  | nil => exact hrest text rest
  | cons text' done ih =>
    obtain ⟨next, more, hcons⟩ := List.exists_cons_of_ne_nil (l := done ++ text :: rest) (by simp)
    rw [List.cons_append, hcons, List.intercalate_cons_cons, ← hcons, ih, List.flatMap_cons]
    simp only [List.append_assoc]

/-! ## Arrays -/

/-- The values of an array, with a comma behind each. -/
lemma exists_bareElements {texts : List (List UInt8)} (h : ∀ text ∈ texts, IsValueText text) :
    ∃ done, ElementsFollow readable done ∧ elementsBytes done = texts.flatMap (· ++ ascii ",") ∧
      done.length = texts.length := by
  induction texts with
  | nil => exact ⟨[], trivial, rfl, rfl⟩
  | cons text texts ih =>
    obtain ⟨t, ht, hbytes⟩ := h text List.mem_cons_self
    obtain ⟨done, hdone, hcat, hlen⟩ := ih fun text' h' => h text' (List.mem_cons_of_mem _ h')
    refine ⟨([], t, []) :: done, ⟨⟨blank_nil, ht, blank_nil⟩, hdone⟩, ?_, by simp [hlen]⟩
    rw [elementsBytes, List.flatMap_cons, hcat, hbytes]
    simp [ascii, byte]

/-- **Values with commas between them are an array.** -/
lemma isValueText_array {texts : List (List UInt8)} (h : ∀ text ∈ texts, IsValueText text) :
    IsValueText (byte '[' :: (List.intercalate (ascii ",") texts ++ ascii "]")) := by
  rcases List.eq_nil_or_concat texts with rfl | ⟨init, last, rfl⟩
  · exact ⟨.emptyArray [], blank_nil, rfl⟩
  · obtain ⟨t, ht, hbytes⟩ := h last (by simp)
    have hinit : ∀ text ∈ init, IsValueText text := fun text h' => h text (by simp [h'])
    obtain ⟨done, hdone, hcat, -⟩ := exists_bareElements hinit
    refine ⟨.array done [] t [], ⟨hdone, blank_nil, ht, blank_nil⟩, ?_⟩
    rw [List.concat_eq_append, intercalate_split, Tree.bytes, hcat, hbytes]
    simp [ascii, byte]

/-- An array whose next value is not read. -/
lemma arrayLoop_of_none {fuel : ℕ} {s : List UInt8} (a : List (CFObject δ))
    (h : parseJSONValue lib fuel (terminated (s.dropWhile isWs)) = .ok none) :
    arrayLoop lib (fuel + 1) a (terminated s) = .ok none := by
  rw [arrayLoop]
  simp only [skipWS_terminated, ok_bind, h]

/-- A comma and a closing bracket are no value. -/
lemma parseJSONValue_punctuation {b : UInt8} (hb : b = byte ',' ∨ b = byte ']' ∨ b = byte '}')
    (fuel : ℕ) (s : List UInt8) :
    parseJSONValue lib (fuel + 1) (terminated (b :: s)) = .ok none := by
  have hws : isWs b = false := by
    rcases hb with rfl | rfl | rfl <;> decide
  rw [parseJSONValue_cons lib hws]
  rcases hb with rfl | rfl | rfl <;> rfl

/-- What fails fails before a comma or a bracket. -/
lemma Fails.parse {text : List UInt8} (h : Fails lib text) {b : UInt8}
    (hb : b = byte ',' ∨ b = byte ']' ∨ b = byte '}') (s : List UInt8) {fuel : ℕ}
    (hfuel : 3 * text.length < fuel) :
    parseJSONValue lib fuel (terminated ((text ++ b :: s).dropWhile isWs)) = .ok none := by
  rcases h with rfl | ⟨hstart, hrejects⟩
  · have hws : isWs b = false := by
      rcases hb with rfl | rfl | rfl <;> decide
    obtain ⟨fuel, rfl⟩ : ∃ k, fuel = k + 1 := ⟨fuel - 1, by omega⟩
    rw [List.nil_append, List.dropWhile_cons_of_neg (by simp [hws])]
    exact parseJSONValue_punctuation lib hb fuel s
  · have hdrop := hstart.dropWhile blank_nil (b :: s)
    rw [List.nil_append] at hdrop
    rw [hdrop]
    exact hrejects _ _ (by omega)

/-- **An array in which a value fails is rejected**, but for the brackets alone. -/
lemma rejects_array {done rest : List (List UInt8)} {text : List UInt8}
    (hdone : ∀ text ∈ done, IsValueText text) (hfails : Fails lib text)
    (hmore : text = [] → done ≠ [] ∨ rest ≠ []) :
    Rejects lib
      (byte '[' :: (List.intercalate (ascii ",") (done ++ text :: rest) ++ ascii "]")) := by
  intro r fuel hfuel
  obtain ⟨elements, hfollow, hcat, hlen⟩ := exists_bareElements hdone
  -- what comes behind the value starts with a comma or the bracket
  obtain ⟨b, s, hb, hbehind, hcomma⟩ : ∃ b s, (b = byte ',' ∨ b = byte ']') ∧
      rest.flatMap (ascii "," ++ ·) ++ (ascii "]" ++ r) = b :: s ∧ (rest ≠ [] → b = byte ',') := by
    cases rest with
    | nil => exact ⟨_, _, .inr rfl, rfl, fun h => absurd rfl h⟩
    | cons text' rest => exact ⟨_, _, .inl rfl, rfl, fun _ => rfl⟩
  have htext : byte '[' :: (List.intercalate (ascii ",") (done ++ text :: rest) ++ ascii "]") ++ r =
      byte '[' :: (elementsBytes elements ++ (text ++ b :: s)) := by
    rw [intercalate_split, ← hcat, ← hbehind]
    simp only [List.cons_append, List.append_assoc]
  have hlength : (elementsBytes elements).length + text.length + 2 ≤
      (byte '[' :: (List.intercalate (ascii ",") (done ++ text :: rest) ++ ascii "]")).length := by
    have hone : (ascii "]").length = 1 := rfl
    rw [intercalate_split, ← hcat, List.length_cons, List.length_append, List.length_append,
      List.length_append, hone]
    omega
  have hstart : Starts ((elementsBytes elements ++ (text ++ b :: s)).dropWhile isWs) := by
    have htail : Starts (text ++ b :: s) →
        Starts ((elementsBytes elements ++ (text ++ b :: s)).dropWhile isWs) := fun h =>
      @starts_elements readable readable_number (fun _ h => h) elements hfollow [] _ blank_nil h
    rcases hfails with rfl | ⟨⟨c, p, rfl, hc⟩, -⟩
    · rcases List.eq_nil_or_concat done with hnil | ⟨init, last, hinit⟩
      · rw [hcomma ((hmore rfl).resolve_left fun h => h hnil)] at htail ⊢
        exact htail ⟨_, _, rfl, by decide⟩
      · cases elements with
        | nil => simp [hinit] at hlen
        | cons slot slots =>
          obtain ⟨lead, t, trail⟩ := slot
          obtain ⟨⟨hlead, ht, -⟩, -⟩ := hfollow
          rw [elementsBytes, List.append_assoc, List.append_assoc,
            (starts_tree readable_number ht).dropWhile hlead]
          obtain ⟨c, p, hbytes, hc⟩ := starts_tree readable_number ht
          exact ⟨c, _, by rw [hbytes, List.cons_append], hc⟩
    · exact htail ⟨c, _, rfl, hc⟩
  obtain ⟨fuel, rfl⟩ : ∃ k, fuel = k + 2 := ⟨fuel - 2, by omega⟩
  obtain ⟨fuel', hk, hloop⟩ := arrayLoop_elements lib hfollow
    (fun slot h => parse_tree lib ((elementsFollow_iff elements).mp hfollow slot h).2.1)
    (show 3 * (elementsBytes elements).length + (3 * text.length + 2) ≤ fuel by omega) []
    (text ++ b :: s)
  obtain ⟨fuel', rfl⟩ : ∃ k, fuel' = k + 1 := ⟨fuel' - 1, by omega⟩
  have hparse := hfails.parse lib (b := b) (by tauto) s (show 3 * text.length < fuel' by omega)
  rw [htext, parseJSONValue_array lib fuel hstart, hloop, arrayLoop_of_none lib _ hparse]

/-! ## Objects -/

/-- The members of an object, with a comma behind each. -/
lemma exists_bareMembers {members : List (List UInt8 × List UInt8)}
    (h : ∀ e ∈ members, 0 ∉ e.1 ∧ IsValueText e.2) :
    ∃ done, MembersFollow readable done ∧
      membersBytes done = (members.map memberText).flatMap (· ++ ascii ",") := by
  induction members with
  | nil => exact ⟨[], trivial, rfl⟩
  | cons e members ih =>
    obtain ⟨hkey, t, ht, hbytes⟩ := h e List.mem_cons_self
    obtain ⟨done, hdone, hcat⟩ := ih fun e' h' => h e' (List.mem_cons_of_mem _ h')
    refine ⟨(keyOf e.1, t, []) :: done, ⟨⟨ofKey_keyOf hkey, ht, blank_nil⟩, hdone⟩, ?_⟩
    rw [membersBytes, List.map_cons, List.flatMap_cons, hcat, ← bytes_keyOf, hbytes]
    simp [ascii, byte]

/-- **Members with commas between them are an object.** -/
lemma isValueText_object {members : List (List UInt8 × List UInt8)}
    (h : ∀ e ∈ members, 0 ∉ e.1 ∧ IsValueText e.2) :
    IsValueText (byte '{' :: (List.intercalate (ascii ",") (members.map memberText) ++
      ascii "\x7d")) := by
  rcases List.eq_nil_or_concat members with rfl | ⟨init, last, rfl⟩
  · exact ⟨.emptyObject [], blank_nil, rfl⟩
  · obtain ⟨hkey, t, ht, hbytes⟩ := h last (by simp)
    have hinit : ∀ e ∈ init, 0 ∉ e.1 ∧ IsValueText e.2 := fun e h' => h e (by simp [h'])
    obtain ⟨done, hdone, hcat⟩ := exists_bareMembers hinit
    refine ⟨.object done (keyOf last.1) t [], ⟨hdone, ofKey_keyOf hkey, ht, blank_nil⟩, ?_⟩
    rw [List.concat_eq_append, List.map_append, List.map_singleton, intercalate_split, Tree.bytes,
      hcat, ← bytes_keyOf, hbytes]
    simp [ascii, byte]

/-- **An object in which a value fails is rejected.** -/
lemma rejects_object {done rest : List (List UInt8 × List UInt8)} {e : List UInt8 × List UInt8}
    (hdone : ∀ e ∈ done, 0 ∉ e.1 ∧ IsValueText e.2) (hkey : 0 ∉ e.1) (hfails : Fails lib e.2) :
    Rejects lib (byte '{' :: (List.intercalate (ascii ",") ((done ++ e :: rest).map memberText) ++
      ascii "\x7d")) := by
  intro r fuel hfuel
  obtain ⟨members, hfollow, hcat⟩ := exists_bareMembers hdone
  obtain ⟨b, s, hb, hbehind⟩ : ∃ b s, (b = byte ',' ∨ b = byte ']' ∨ b = byte '}') ∧
      (rest.map memberText).flatMap (ascii "," ++ ·) ++ (ascii "\x7d" ++ r) = b :: s := by
    cases rest with
    | nil => exact ⟨_, _, .inr (.inr rfl), rfl⟩
    | cons e' rest => exact ⟨_, _, .inl rfl, rfl⟩
  have hmember : memberText e = stringBytes (e.1.map itemOf) ++ (byte ':' :: e.2) := rfl
  have hsplit : List.intercalate (ascii ",") ((done ++ e :: rest).map memberText) =
      membersBytes members ++ (memberText e ++ (rest.map memberText).flatMap (ascii "," ++ ·)) := by
    rw [List.map_append, List.map_cons, intercalate_split, hcat]
  have htext : byte '{' :: (List.intercalate (ascii ",") ((done ++ e :: rest).map memberText) ++
      ascii "\x7d") ++ r = byte '{' :: (membersBytes members ++
        (stringBytes (e.1.map itemOf) ++ (byte ':' :: (e.2 ++ b :: s)))) := by
    rw [hsplit, hmember, ← hbehind]
    simp only [List.cons_append, List.append_assoc]
  have hlength : (membersBytes members).length + e.2.length + 3 ≤
      (byte '{' :: (List.intercalate (ascii ",") ((done ++ e :: rest).map memberText) ++
        ascii "\x7d")).length := by
    have hone : (ascii "\x7d").length = 1 := rfl
    rw [hsplit, hmember, List.length_cons, List.length_append, List.length_append,
      List.length_append, List.length_append, List.length_cons, hone]
    omega
  have hquote : Starts (stringBytes (e.1.map itemOf) ++ (byte ':' :: (e.2 ++ b :: s))) :=
    starts_quote _
  have hstart := starts_members (fun _ h => h) hfollow blank_nil hquote
  rw [List.nil_append] at hstart
  obtain ⟨fuel, rfl⟩ : ∃ k, fuel = k + 2 := ⟨fuel - 2, by omega⟩
  obtain ⟨fuel', hk, hloop⟩ := objectLoop_members lib hfollow
    (fun slot h => parse_tree lib ((membersFollow_iff members).mp hfollow slot h).2.1)
    (show 3 * (membersBytes members).length + (3 * e.2.length + 2) ≤ fuel by omega) []
    (stringBytes (e.1.map itemOf) ++ (byte ':' :: (e.2 ++ b :: s)))
  obtain ⟨fuel', rfl⟩ : ∃ k, fuel' = k + 1 := ⟨fuel' - 1, by omega⟩
  -- the key is read, and then the value fails
  have hname := parseJSONString_append (wellFormed_map_itemOf hkey) (byte ':' :: (e.2 ++ b :: s))
  have hdrop := hquote.dropWhile blank_nil []
  rw [List.nil_append, List.append_nil] at hdrop
  rw [← hdrop] at hname
  have hcolon : (byte ':' :: (e.2 ++ b :: s)).dropWhile isWs = byte ':' :: (e.2 ++ b :: s) :=
    List.dropWhile_cons_of_neg (by decide)
  have hparse := hfails.parse lib hb s (show 3 * e.2.length < fuel' by omega)
  rw [htext, parseJSONValue_object lib fuel hstart, hloop, objectLoop_of_key lib _ hname, hcolon]
  simp only [if_true, hparse, ok_bind]

/-! ## What the writer puts out -/

/-- What is written for an object: a value if it is representable, or what is not read as one, or
nothing as the program aborts. -/
inductive Outcome (x : Graph δ) : Except Failure (List UInt8) → Prop where
  | value {text : List UInt8} : x.Representable → 0 ∉ text → IsValueText text → Outcome x (.ok text)
  | fails {text : List UInt8} : ¬x.Representable → 0 ∉ text → Fails lib text →
      (x = .other ↔ text = []) → Outcome x (.ok text)
  | stops {e : Failure} : ¬x.Representable → x ≠ .other → Outcome x (.error e)

variable {lib}

/-- There is no NUL in what is written. -/
lemma Outcome.nulFree {x : Graph δ} {text : List UInt8} (h : Outcome lib x (.ok text)) :
    0 ∉ text := by
  cases h with
  | value _ hnul _ => exact hnul
  | fails _ hnul _ _ => exact hnul

/-- The loop over the values of an array stops, or writes all of them. -/
lemma writeJSONValues_cases {xs : List (Graph δ)}
    (h : ∀ x ∈ xs, Outcome lib x (x.writeJSONValue lib)) :
    (∃ e, Graph.writeJSONValues lib xs = .error e ∧ ∃ x ∈ xs, ¬x.Representable ∧ x ≠ .other) ∨
      ∃ texts, Graph.writeJSONValues lib xs = .ok texts ∧
        List.Forall₂ (fun x text => Outcome lib x (.ok text)) xs texts := by
  induction xs with
  | nil => exact .inr ⟨[], rfl, .nil⟩
  | cons x xs ih =>
    have hx := h x List.mem_cons_self
    cases hwrite : x.writeJSONValue lib with
    | error e =>
      rw [hwrite] at hx
      cases hx with
      | stops hrep hother =>
        refine .inl ⟨e, ?_, x, List.mem_cons_self, hrep, hother⟩
        rw [Graph.writeJSONValues, hwrite]
        rfl
    | ok text =>
      rw [hwrite] at hx
      rcases ih fun y hy => h y (List.mem_cons_of_mem _ hy) with
        ⟨e, he, y, hy, hrep⟩ | ⟨texts, htexts, hall⟩
      · refine .inl ⟨e, ?_, y, List.mem_cons_of_mem _ hy, hrep⟩
        rw [Graph.writeJSONValues, hwrite, he]
        rfl
      · refine .inr ⟨text :: texts, ?_, .cons hx hall⟩
        rw [Graph.writeJSONValues, hwrite, htexts]
        rfl

/-- A key that is a string is written. -/
lemma writeKey_some (s : List UInt8) :
    Graph.writeKey (some s) = .ok (stringBytes ((CString.ofBytes s).bytes.map itemOf)) := by
  have hnul := (CString.ofBytes s).nulFree
  have hsame : appendJSONEscapedString s = appendJSONEscapedString (CString.ofBytes s).bytes := by
    rw [appendJSONEscapedString, appendJSONEscapedString, CString.bytes_ofBytes_of_nulFree hnul]
  rw [Graph.writeKey, hsame, appendJSONEscapedString_eq hnul]
  rfl

/-- The loop over the keys of a dictionary stops, or writes all members. -/
lemma writeJSONMembers_cases {es : List (Option (List UInt8) × Graph δ)}
    (h : ∀ e ∈ es, Outcome lib e.2 (e.2.writeJSONValue lib)) :
    (∃ f, Graph.writeJSONMembers lib es = .error f ∧
        ∃ e ∈ es, ¬(e.1.isSome = true ∧ e.2.Representable)) ∨
      ∃ members : List (List UInt8 × List UInt8),
        Graph.writeJSONMembers lib es = .ok (members.map memberText) ∧
        (∀ m ∈ members, 0 ∉ m.1) ∧ (∀ e ∈ es, e.1.isSome = true) ∧
        List.Forall₂ (fun x text => Outcome lib x (.ok text)) (es.map Prod.snd)
          (members.map Prod.snd) := by
  induction es with
  | nil => exact .inr ⟨[], rfl, by simp, by simp, .nil⟩
  | cons e es ih =>
    obtain ⟨key, x⟩ := e
    have hx : Outcome lib x (x.writeJSONValue lib) := h (key, x) List.mem_cons_self
    cases key with
    | none =>
      refine .inl ⟨.aborted, rfl, (none, x), List.mem_cons_self, ?_⟩
      simp
    | some s =>
      cases hwrite : x.writeJSONValue lib with
      | error f =>
        rw [hwrite] at hx
        cases hx with
        | stops hrep hother =>
          refine .inl ⟨f, ?_, (some s, x), List.mem_cons_self, fun hboth => hrep hboth.2⟩
          rw [Graph.writeJSONMembers, writeKey_some, hwrite]
          rfl
      | ok text =>
        rw [hwrite] at hx
        rcases ih fun e he => h e (List.mem_cons_of_mem _ he) with
          ⟨f, hf, e, he, hrep⟩ | ⟨members, hmembers, hnul, hkeys, hall⟩
        · refine .inl ⟨f, ?_, e, List.mem_cons_of_mem _ he, hrep⟩
          rw [Graph.writeJSONMembers, writeKey_some, hwrite, hf]
          rfl
        · refine .inr ⟨((CString.ofBytes s).bytes, text) :: members, ?_, ?_, ?_, .cons hx hall⟩
          · rw [Graph.writeJSONMembers, writeKey_some, hwrite, hmembers]
            rfl
          · exact List.forall_mem_cons.mpr ⟨(CString.ofBytes s).nulFree, hnul⟩
          · exact List.forall_mem_cons.mpr ⟨rfl, hkeys⟩

/-- All that was written are values, or there is a first that fails. -/
lemma outcomes_cases {xs : List (Graph δ)} {texts : List (List UInt8)}
    (h : List.Forall₂ (fun x text => Outcome lib x (.ok text)) xs texts) :
    ((∀ x ∈ xs, x.Representable) ∧ ∀ text ∈ texts, IsValueText text) ∨
      ∃ done text rest, texts = done ++ text :: rest ∧ (∀ text ∈ done, IsValueText text) ∧
        Fails lib text ∧ (¬∀ x ∈ xs, x.Representable) ∧
        (text = [] → done = [] → rest = [] → xs = [.other]) := by
  induction h with
  | nil => exact .inl ⟨by simp, by simp⟩
  | @cons x text xs texts hx hxs ih =>
    cases hx with
    | value hrep hnul htext =>
      rcases ih with ⟨hreps, htexts⟩ | ⟨done, text', rest, rfl, hdone, hfails, hnot, -⟩
      · exact .inl ⟨List.forall_mem_cons.mpr ⟨hrep, hreps⟩,
          List.forall_mem_cons.mpr ⟨htext, htexts⟩⟩
      · refine .inr ⟨text :: done, text', rest, rfl, List.forall_mem_cons.mpr ⟨htext, hdone⟩,
          hfails, fun hall => hnot fun y hy => hall y (List.mem_cons_of_mem _ hy), fun _ hnil => ?_⟩
        exact absurd hnil (List.cons_ne_nil _ _)
    | fails hrep hnul hfails hother =>
      refine .inr ⟨[], text, texts, rfl, by simp, hfails,
        fun hall => hrep (hall x List.mem_cons_self), fun hnil _ hrest => ?_⟩
      subst hrest
      rw [List.forall₂_nil_right_iff] at hxs
      rw [hxs, hother.mpr hnil]

/-- There is no NUL in any of them. -/
lemma outcomes_nulFree {xs : List (Graph δ)} {texts : List (List UInt8)}
    (h : List.Forall₂ (fun x text => Outcome lib x (.ok text)) xs texts) :
    ∀ text ∈ texts, 0 ∉ text := by
  induction h with
  | nil => simp
  | cons hx _ ih => exact List.forall_mem_cons.mpr ⟨hx.nulFree, ih⟩

/-- A string is written as a value. -/
lemma outcome_string (s : List UInt8) :
    Outcome lib (Graph.string s) ((Graph.string s).writeJSONValue lib) := by
  have hnul := (CString.ofBytes s).nulFree
  have hwrite : (Graph.string s).writeJSONValue lib = Graph.writeKey (some s) := rfl
  rw [hwrite, writeKey_some]
  exact .value trivial (nulFree_stringBytes hnul) ⟨.string _, wellFormed_map_itemOf hnul, rfl⟩

/-- An array is written as a value if its values are, or fails. -/
lemma outcome_array {xs : List (Graph δ)} (h : ∀ x ∈ xs, Outcome lib x (x.writeJSONValue lib)) :
    Outcome lib (.array xs) ((Graph.array xs).writeJSONValue lib) := by
  by_cases halone : xs = [.other]
  · subst halone
    have hwrite : (Graph.array [.other]).writeJSONValue lib = .ok (ascii "[]") := rfl
    rw [hwrite]
    exact .value (.inl rfl) (by decide) ⟨.emptyArray [], blank_nil, rfl⟩
  · have hne : Graph.array xs ≠ .other := nofun
    have hrep : (Graph.array xs).Representable ↔ ∀ x ∈ xs, x.Representable := by
      rw [Graph.Representable, Graph.valuesRepresentable_iff, or_iff_right halone]
    rcases writeJSONValues_cases h with ⟨e, he, x, hx, hnot, -⟩ | ⟨texts, htexts, hall⟩
    · have hwrite : (Graph.array xs).writeJSONValue lib = .error e := by
        rw [Graph.writeJSONValue, he]
        rfl
      rw [hwrite]
      exact .stops (fun hr => hnot (hrep.mp hr x hx)) hne
    · have hwrite : (Graph.array xs).writeJSONValue lib =
          .ok (byte '[' :: (List.intercalate (ascii ",") texts ++ ascii "]")) := by
        rw [Graph.writeJSONValue, htexts]
        rfl
      have hnul : 0 ∉ byte '[' :: (List.intercalate (ascii ",") texts ++ ascii "]") := by
        have hfree := nulFree_intercalate (outcomes_nulFree hall)
        simp only [List.mem_cons, List.mem_append, hfree, false_or]
        decide
      rw [hwrite]
      rcases outcomes_cases hall with ⟨hreps, hvalues⟩ |
        ⟨done, text, rest, rfl, hdone, hfails, hnot, hsingle⟩
      · exact .value (hrep.mpr hreps) hnul (isValueText_array hvalues)
      · have hmore : text = [] → done ≠ [] ∨ rest ≠ [] := by
          tauto
        have hrejects := rejects_array lib hdone hfails hmore
        exact .fails (fun hr => hnot (hrep.mp hr)) hnul (.inr ⟨⟨_, _, rfl, by decide⟩, hrejects⟩)
          (by simp)

/-- A dictionary is written as a value if its keys are strings and its values are, or fails. -/
lemma outcome_dictionary {es : List (Option (List UInt8) × Graph δ)}
    (h : ∀ e ∈ es, Outcome lib e.2 (e.2.writeJSONValue lib)) :
    Outcome lib (.dictionary es) ((Graph.dictionary es).writeJSONValue lib) := by
  have hne : Graph.dictionary es ≠ .other := nofun
  have hrep : (Graph.dictionary es).Representable ↔
      ∀ e ∈ es, e.1.isSome = true ∧ e.2.Representable := by
    rw [Graph.Representable, Graph.entriesRepresentable_iff]
  rcases writeJSONMembers_cases h with ⟨f, hf, e, he, hnot⟩ | ⟨members, hmembers, hnul, hkeys, hall⟩
  · have hwrite : (Graph.dictionary es).writeJSONValue lib = .error f := by
      rw [Graph.writeJSONValue, hf]
      rfl
    rw [hwrite]
    exact .stops (fun hr => hnot (hrep.mp hr e he)) hne
  · have hwrite : (Graph.dictionary es).writeJSONValue lib = .ok (byte '{' ::
        (List.intercalate (ascii ",") (members.map memberText) ++ ascii "\x7d")) := by
      rw [Graph.writeJSONValue, hmembers]
      rfl
    have htextnul : 0 ∉ byte '{' ::
        (List.intercalate (ascii ",") (members.map memberText) ++ ascii "\x7d") := by
      have hfree : 0 ∉ List.intercalate (ascii ",") (members.map memberText) := by
        refine nulFree_intercalate fun text htext => ?_
        obtain ⟨m, hm, rfl⟩ := List.mem_map.mp htext
        have hvalue := outcomes_nulFree hall m.2 (List.mem_map_of_mem hm)
        have hcolon : (0 : UInt8) ≠ byte ':' := by decide
        simp only [memberText, List.mem_append, List.mem_cons, hcolon, false_or, not_or]
        exact ⟨nulFree_stringBytes (hnul m hm), hvalue⟩
      simp only [List.mem_cons, List.mem_append, hfree, false_or]
      decide
    rw [hwrite]
    rcases outcomes_cases hall with ⟨hreps, hvalues⟩ |
      ⟨done, text, rest, hsplit, hdone, hfails, hnot, -⟩
    · refine .value (hrep.mpr fun e he => ⟨hkeys e he, hreps e.2 (List.mem_map_of_mem he)⟩) htextnul
        (isValueText_object fun m hm => ⟨hnul m hm, hvalues m.2 (List.mem_map_of_mem hm)⟩)
    · obtain ⟨before, behind, rfl, rfl, hbehind⟩ := List.map_eq_append_iff.mp hsplit
      obtain ⟨m, after, rfl, rfl, -⟩ := List.map_eq_cons_iff.mp hbehind
      have hrejects := @rejects_object δ lib before after m
        (fun m hm => ⟨hnul m (List.mem_append_left _ hm), hdone m.2 (List.mem_map_of_mem hm)⟩)
        (hnul m (by simp)) hfails
      refine .fails (fun hr => hnot fun x hx => ?_) htextnul
        (.inr ⟨⟨_, _, rfl, by decide⟩, hrejects⟩) (by simp)
      obtain ⟨e, he, rfl⟩ := List.mem_map.mp hx
      exact (hrep.mp hr e he).2

/-- **What the writer puts out**, if reals are written as values.

**Proof sketch.** Induction over the graph. In a container the values up to the first one that fails
are read, and the reader gives up at that one. -/
theorem outcome (hreal : ∀ d, IsValueText (lib.formatDouble d).bytes) (x : Graph δ) :
    Outcome lib x (x.writeJSONValue lib) := by
  induction x using Graph.graphInduction with
  | null => exact .value trivial (by decide) ⟨.null, trivial, rfl⟩
  | boolean b => exact .value trivial (by cases b <;> decide) ⟨.boolean b, trivial, rfl⟩
  | real d => exact .value trivial (lib.formatDouble d).nulFree (hreal d)
  | integer v =>
    have hformat : longFormat.bytes = [] ++ byte '%' :: (ascii "ld" ++ []) := by decide
    have hwrite : (Graph.integer v).writeJSONValue lib = .ok (decimal v) := by
      rw [Graph.writeJSONValue, format_integer List.not_mem_nil List.not_mem_nil hformat,
        List.nil_append, List.append_nil]
      rfl
    rw [hwrite]
    exact .value trivial (decimal_nulFree v)
      ⟨.number (numberOf v), ⟨wellFormed_numberOf v, short_numberOf v⟩, bytes_numberOf v⟩
  | string s => exact outcome_string s
  | dictionary es ih => exact outcome_dictionary ih
  | array xs ih => exact outcome_array ih
  | other => exact .fails id List.not_mem_nil (.inl rfl) (by simp)

/-! ## Reading back -/

/-- The text of a double is a number that the reader takes. -/
lemma isValueText_formatDouble (d : Double) : IsValueText (Foundation.formatDouble d).bytes := by
  obtain ⟨neg, int, frac, hbytes, hne, hint, hfrac, hlen⟩ := formatDouble_spec d
  have hnumber :
      (Number.mk neg int (some frac) none).bytes = (Foundation.formatDouble d).bytes := by
    rw [hbytes, Number.bytes, Number.fracBytes, Number.expBytes, List.append_nil]
  refine ⟨.number ⟨neg, int, some frac, none⟩, ⟨⟨hint, .inr hne, ?_, ?_⟩, ?_⟩, hnumber⟩
  · intro digits h
    rwa [← Option.some.inj h]
  · exact fun e h => absurd h (Option.not_mem_none e)
  · rwa [Number.Short, hnumber]

/-- The library with the doubles of the code. -/
def withDoubles (lib : Library Double) : Library Double :=
  { lib with formatDouble := Foundation.formatDouble }

/-- It writes doubles as values. -/
lemma formatDouble_withDoubles (lib : Library Double) (d : Double) :
    IsValueText ((withDoubles lib).formatDouble d).bytes := by
  rw [withDoubles]
  exact isValueText_formatDouble d

/-- The data for the graph is accepted. -/
def ReadsBack (lib : Library δ) (o : Graph δ) : Prop :=
  ∃ data v, o.dataWithJSONObject lib = .ok (some data) ∧
    jsonObjectWithData lib data = .ok (some v)

/-- What is written for a container starts with its bracket. -/
lemma writeJSONValue_container {o : Graph δ} (ho : o.isValidJSONObject = true) {text : List UInt8}
    (h : o.writeJSONValue lib = .ok text) :
    ∃ b s, text = b :: s ∧ (b = byte '{' ∨ b = byte '[') := by
  cases o with
  | dictionary es =>
    rw [Graph.writeJSONValue] at h
    cases hmembers : Graph.writeJSONMembers lib es with
    | error e =>
      rw [hmembers] at h
      cases h
    | ok members =>
      rw [hmembers] at h
      exact ⟨_, _, (Except.ok.inj h).symm, .inl rfl⟩
  | array xs =>
    rw [Graph.writeJSONValue] at h
    cases htexts : Graph.writeJSONValues lib xs with
    | error e =>
      rw [htexts] at h
      cases h
    | ok texts =>
      rw [htexts] at h
      exact ⟨_, _, (Except.ok.inj h).symm, .inr rfl⟩
  | _ => cases ho

/-- The data is what was written. -/
lemma dataWithJSONObject_eq {o : Graph δ} (ho : o.isValidJSONObject = true) {text : List UInt8}
    (h : o.writeJSONValue lib = .ok text) (hnul : 0 ∉ text) :
    o.dataWithJSONObject lib = .ok (some text) := by
  obtain ⟨b, s, rfl, hb⟩ := writeJSONValue_container ho h
  have hascii : b < 0x80 := by
    rcases hb with rfl | rfl <;> decide
  have hexport := dataUsingEncoding_of_ascii hascii hnul
  rw [Graph.dataWithJSONObject, ho, h]
  change ((dataUsingEncoding (b :: s)).mapError Failure.fault >>= fun data => .ok (some data)) = _
  rw [hexport]
  rfl

/-- **The graphs whose data is accepted**, of those that `isValidJSONObject:` approves. -/
lemma readsBack_of_outcome {o : Graph δ} (ho : o.isValidJSONObject = true)
    (hout : Outcome lib o (o.writeJSONValue lib)) : ReadsBack lib o ↔ o.Representable := by
  -- whatever is written starts with a bracket, and the reader goes on with it
  have hread : ∀ text, o.writeJSONValue lib = .ok text → jsonObjectWithData lib text = (do
      let result ← parseJSONValue lib (3 * (text.length + 1)) (terminated text)
      .ok (result.map Prod.fst)) := by
    intro text hwrite
    obtain ⟨b, s, rfl, hb⟩ := writeJSONValue_container ho hwrite
    have hdrop : (b :: s).dropWhile isWs = b :: s := by
      rcases hb with rfl | rfl <;> exact List.dropWhile_cons_of_neg (by decide)
    rw [jsonObjectWithData_cons lib hdrop, if_pos hb, List.length_cons]
  generalize hwrite : o.writeJSONValue lib = written at hout
  cases hout with
  | @value text hrep hnul htext =>
    refine iff_of_true ?_ hrep
    obtain ⟨t, ht, rfl⟩ := htext
    have hparse := parse_tree lib ht [] (3 * (t.bytes.length + 1)) (.inr nofun) (by omega)
    rw [List.append_nil] at hparse
    refine ⟨t.bytes, t.value lib, dataWithJSONObject_eq ho hwrite hnul, ?_⟩
    rw [hread _ hwrite, hparse]
    rfl
  | @fails text hrep hnul hfails hother =>
    refine iff_of_false ?_ hrep
    rintro ⟨data, v, hdata, haccept⟩
    rw [dataWithJSONObject_eq ho hwrite hnul] at hdata
    cases hdata
    have hne : text ≠ [] := by
      intro hnil
      rw [hother.mpr hnil] at ho
      cases ho
    have hparse := (hfails.resolve_left hne).2 [] (3 * (text.length + 1)) (by omega)
    rw [List.append_nil] at hparse
    rw [hread _ hwrite, hparse] at haccept
    cases haccept
  | @stops e hrep hother =>
    refine iff_of_false ?_ hrep
    rintro ⟨data, v, hdata, -⟩
    rw [Graph.dataWithJSONObject, ho, hwrite] at hdata
    cases hdata

/-- **The graphs whose data is accepted.** What `isValidJSONObject:` approves can be read back
exactly if all keys in it are strings and all objects of other classes stand alone in an array. -/
theorem readsBack_iff (lib : Library Double) (o : Graph Double) :
    (o.isValidJSONObject = true → ReadsBack (withDoubles lib) o) ↔
      (o.isValidJSONObject = true → o.Representable) := by
  have hout := outcome (formatDouble_withDoubles lib) o
  exact forall_congr' fun ho => readsBack_of_outcome ho hout

/-- **An approved graph whose data is rejected**: an array of an object of another class and a
null. -/
theorem not_readsBack :
    ¬∀ (lib : Library Double) (o : Graph Double), o.isValidJSONObject = true →
      ReadsBack (withDoubles lib) o := by
  intro h
  have hreads := h ⟨fun _ => .ofBytes [], fun _ => .nan, fun _ => .ofBytes [], fun _ => none⟩
    (.array [.other, .null]) rfl
  rw [readsBack_of_outcome rfl (outcome (formatDouble_withDoubles _) _)] at hreads
  simp [Graph.Representable, Graph.ValuesRepresentable] at hreads

end Asteros.Foundation.Json
