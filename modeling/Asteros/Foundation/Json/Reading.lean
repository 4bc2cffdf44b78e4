import Asteros.Foundation.Json.Leaves

set_option autoImplicit false

/-!
# Reading JSON values

The reader on the texts of trees: on that of a readable value it returns the value and stops
behind it, and on that of an unfinished one it leaves the text.

## Main definitions

* `ParsesTo` — a value is read, and the cursor is left behind it.

## Main results

* `parse_tree` — a readable value is read.
* `parse_unfinished` — an unfinished value is read beyond its end.
-/

namespace Asteros.Foundation.Json

open Asteros.Libc Asteros.CoreFoundation Asteros.Foundation.Json.Tree

variable {δ : Type} (lib : Library δ)

/-! ## Heads and separators -/

/-- Whitespace before a character that is no whitespace is skipped. -/
lemma dropWhile_lead {lead s : List UInt8} (hlead : Blank lead)
    (hs : ∀ b ∈ s.head?, isWs b = false) : (lead ++ s).dropWhile isWs = s :=
  (takeWhile_run hlead hs).2

/-- A number starts with a sign or a digit. -/
lemma Number.WellFormed.exists_cons {n : Number} (hn : n.WellFormed) :
    ∃ b s, n.bytes = b :: s ∧ (b = byte '-' ∨ isdigit b = true) := by
  obtain ⟨minus, int, frac, exp⟩ := n
  obtain ⟨hint, hstart, -, -⟩ := hn
  cases minus with
  | true => exact ⟨byte '-', _, rfl, Or.inl rfl⟩
  | false =>
    obtain ⟨d, digits, rfl⟩ := List.exists_cons_of_ne_nil (hstart.resolve_left (by simp))
    exact ⟨d, _, rfl, Or.inr (hint d List.mem_cons_self)⟩

/-- A digit is no whitespace. -/
lemma isWs_of_isdigit {b : UInt8} (h : isdigit b = true) : isWs b = false := by
  by_contra hws
  rw [Bool.not_eq_false] at hws
  simp only [isWs, Bool.or_eq_true, beq_iff_eq] at hws
  rcases hws with ((rfl | rfl) | rfl) | rfl <;> exact absurd h (by decide)

/-- A text starts neither with whitespace nor with a closing bracket. -/
def Starts (s : List UInt8) : Prop :=
  ∃ b s', s = b :: s' ∧ isWs b = false ∧ b ≠ byte ']' ∧ b ≠ byte '}'

/-- A text that starts is not skipped. -/
lemma Starts.dropWhile {s : List UInt8} (hs : Starts s) {lead : List UInt8} (hlead : Blank lead)
    (c : List UInt8) : (lead ++ (s ++ c)).dropWhile isWs = s ++ c := by
  obtain ⟨b, s, rfl, hb, -⟩ := hs
  exact dropWhile_lead hlead (by simpa using hb)

/-- A value starts. -/
lemma starts_tree {R : Rule} (hR : ∀ n, R.number n → n.WellFormed) {t : Tree}
    (ht : Follows R t) : Starts t.bytes := by
  cases t with
  | null => exact ⟨_, _, rfl, by decide⟩
  | boolean b =>
    cases b with
    | true => exact ⟨_, _, rfl, by decide⟩
    | false => exact ⟨_, _, rfl, by decide⟩
  | number n =>
    obtain ⟨b, s, hbytes, hb⟩ := (hR n ht).exists_cons
    refine ⟨b, s, hbytes, ?_⟩
    rcases hb with rfl | hb
    · decide
    · refine ⟨isWs_of_isdigit hb, ?_, ?_⟩
      · rintro rfl
        exact absurd hb (by decide)
      · rintro rfl
        exact absurd hb (by decide)
  | string items => exact ⟨_, _, rfl, by decide⟩
  | emptyArray blank => exact ⟨_, _, rfl, by decide⟩
  | array done lead last trail => exact ⟨_, _, rfl, by decide⟩
  | emptyObject blank => exact ⟨_, _, rfl, by decide⟩
  | object done key last trail => exact ⟨_, _, rfl, by decide⟩

/-- An unfinished value starts. -/
lemma starts_unfinished (u : Unfinished) : Starts u.bytes := by
  cases u with
  | string items cut => exact ⟨_, _, rfl, by decide⟩
  | array done lead next => exact ⟨_, _, rfl, by decide⟩
  | key done lead items cut => exact ⟨_, _, rfl, by decide⟩
  | member done k next => exact ⟨_, _, rfl, by decide⟩

/-- A string starts. -/
lemma starts_quote (s : List UInt8) : Starts (byte '"' :: s) := ⟨_, _, rfl, by decide⟩

/-- The values of an array start with their whitespace. -/
lemma starts_elements {R : Rule} (hR : ∀ n, R.number n → n.WellFormed)
    (hblank : ∀ s, R.blank s → Blank s) {done : List (List UInt8 × Tree × List UInt8)}
    (hd : ElementsFollow R done) {lead s : List UInt8} (hlead : Blank lead) (hs : Starts s) :
    Starts ((elementsBytes done ++ (lead ++ s)).dropWhile isWs) := by
  cases done with
  | nil =>
    have h := hs.dropWhile hlead []
    rw [List.append_nil] at h
    rwa [elementsBytes, List.nil_append, h]
  | cons slot done =>
    obtain ⟨lead', t, trail⟩ := slot
    have hstart := starts_tree hR hd.1.2.1
    rw [elementsBytes, List.append_assoc, List.append_assoc, hstart.dropWhile (hblank _ hd.1.1)]
    obtain ⟨b, s', hbytes, hb⟩ := hstart
    exact ⟨b, _, by rw [hbytes, List.cons_append], hb⟩

/-- The members of an object start with their whitespace. -/
lemma starts_members {R : Rule} (hblank : ∀ s, R.blank s → Blank s)
    {done : List (Key × Tree × List UInt8)} (hd : MembersFollow R done) {lead s : List UInt8}
    (hlead : Blank lead) (hs : Starts s) :
    Starts ((membersBytes done ++ (lead ++ s)).dropWhile isWs) := by
  cases done with
  | nil =>
    have h := hs.dropWhile hlead []
    rw [List.append_nil] at h
    rwa [membersBytes, List.nil_append, h]
  | cons slot done =>
    obtain ⟨k, t, trail⟩ := slot
    have hcat : membersBytes ((k, t, trail) :: done) ++ (lead ++ s) = k.lead ++
        (stringBytes k.name ++ (k.before ++ (byte ':' :: k.after) ++ (t.bytes ++ (trail ++
          (byte ',' :: membersBytes done))) ++ (lead ++ s))) := by
      simp [membersBytes, Key.bytes]
    have hstart : Starts (stringBytes k.name) := starts_quote _
    rw [hcat, hstart.dropWhile (hblank _ hd.1.1.1)]
    obtain ⟨b, s', hbytes, hb⟩ := hstart
    exact ⟨b, _, by rw [hbytes, List.cons_append], hb⟩

/-- Whitespace, a comma and a closing bracket cannot continue a number. -/
lemma stops_of_blank {trail : List UInt8} (htrail : Blank trail) {b : UInt8}
    (hb : b = byte ',' ∨ b = byte ']' ∨ b = byte '}') (s : List UInt8) :
    Stops (trail ++ b :: s) := by
  intro b' hb'
  cases trail with
  | nil =>
    obtain rfl := Option.some.inj hb'
    rcases hb with rfl | rfl | rfl <;> decide
  | cons b₀ trail =>
    obtain rfl := Option.some.inj hb'
    have hws := htrail _ List.mem_cons_self
    simp only [isWs, Bool.or_eq_true, beq_iff_eq] at hws
    rcases hws with ((rfl | rfl) | rfl) | rfl <;> decide

/-! ## One round of the loops -/

/-- One value of an array, and what comes after it. -/
lemma arrayLoop_of_value {fuel : ℕ} {s r : List UInt8} {v : CFObject δ} (a : List (CFObject δ))
    (h : parseJSONValue lib fuel (terminated (s.dropWhile isWs)) =
      .ok (some (v, terminated r))) :
    arrayLoop lib (fuel + 1) a (terminated s) =
      match r.dropWhile isWs with
      | [] => .ok none
      | b :: r => if b = byte ',' then arrayLoop lib fuel (a ++ [v]) (terminated r)
        else .ok (if b = byte ']' then some (.array (a ++ [v]), terminated r) else none) := by
  rw [arrayLoop]
  simp only [skipWS_terminated, ok_bind, h, skipIf_char (show byte ',' ≠ 0 by decide),
    skipIf_char (show byte ']' ≠ 0 by decide)]
  cases r.dropWhile isWs with
  | nil => rfl
  | cons b r =>
    by_cases hcomma : b = byte ','
    · simp [skipOne, hcomma]
    · by_cases hclose : b = byte ']'
      · simp [skipOne, hclose, show ¬byte ']' = byte ',' by decide]
      · simp [skipOne, hcomma, hclose]

/-- The key of a member, and what comes after it. -/
lemma objectLoop_of_key {fuel : ℕ} {s r : List UInt8} {k : List UInt8} (d : Entries δ)
    (h : parseJSONString (terminated (s.dropWhile isWs)) = .ok (some (k, terminated r))) :
    objectLoop lib (fuel + 1) d (terminated s) =
      match r.dropWhile isWs with
      | [] => .ok none
      | b :: r => if b = byte ':' then do
          match ← parseJSONValue lib fuel (terminated (r.dropWhile isWs)) with
          | none => .ok none
          | some (value, c) => do
            let d := cfDictionarySetValue d k value
            let c ← skipWS c
            let (comma, c) ← skipIf (· == byte ',') c
            if comma then objectLoop lib fuel d c
            else do
              let (closed, c) ← skipIf (· == byte '}') c
              .ok (if closed then some (.dictionary d, c) else none)
        else .ok none := by
  rw [objectLoop]
  simp only [skipWS_terminated, ok_bind, h, skipIf_char (show byte ':' ≠ 0 by decide)]
  cases r.dropWhile isWs with
  | nil => rfl
  | cons b r =>
    by_cases hcolon : b = byte ':'
    · subst hcolon
      rfl
    · simp [skipOne, hcolon]

/-- One member of an object, and what comes after it. -/
lemma objectLoop_of_value {fuel : ℕ} {s r r' r'' : List UInt8} {k : List UInt8} {v : CFObject δ}
    (d : Entries δ)
    (hkey : parseJSONString (terminated (s.dropWhile isWs)) = .ok (some (k, terminated r)))
    (hcolon : r.dropWhile isWs = byte ':' :: r')
    (h : parseJSONValue lib fuel (terminated (r'.dropWhile isWs)) =
      .ok (some (v, terminated r''))) :
    objectLoop lib (fuel + 1) d (terminated s) =
      match r''.dropWhile isWs with
      | [] => .ok none
      | b :: r => if b = byte ',' then
          objectLoop lib fuel (cfDictionarySetValue d k v) (terminated r)
        else .ok (if b = byte '}' then
          some (.dictionary (cfDictionarySetValue d k v), terminated r) else none) := by
  rw [objectLoop_of_key lib d hkey, hcolon]
  simp only [if_true, h, ok_bind, skipWS_terminated,
    skipIf_char (show byte ',' ≠ 0 by decide),
    skipIf_char (show byte '}' ≠ 0 by decide)]
  cases r''.dropWhile isWs with
  | nil => rfl
  | cons b r =>
    by_cases hcomma : b = byte ','
    · simp [skipOne, hcomma]
    · by_cases hclose : b = byte '}'
      · simp [skipOne, hclose, show ¬byte '}' = byte ',' by decide]
      · simp [skipOne, hcomma, hclose]

/-! ## The dispatch -/

/-- The value at a character that is no whitespace. -/
lemma parseJSONValue_cons {b : UInt8} (hb : isWs b = false) (fuel : ℕ) (s : List UInt8) :
    parseJSONValue lib (fuel + 1) (terminated (b :: s)) =
      if b = byte '{' then parseJSONObject lib fuel (terminated (b :: s))
      else if b = byte '[' then parseJSONArray lib fuel (terminated (b :: s))
      else if b = byte '"' then do
        let r ← parseJSONString (terminated (b :: s))
        .ok (r.map fun r => (.string r.1, r.2))
      else if b = byte 't' then parseLiteral (terminated (b :: s)) (ascii "true") (.boolean true)
      else if b = byte 'f' then parseLiteral (terminated (b :: s)) (ascii "false") (.boolean false)
      else if b = byte 'n' then parseLiteral (terminated (b :: s)) (ascii "null") .null
      else if b = byte '-' ∨ isdigit b then parseJSONNumber lib (terminated (b :: s))
      else .ok none := by
  have hdrop : (b :: s).dropWhile isWs = b :: s := List.dropWhile_cons_of_neg (by simp [hb])
  rw [parseJSONValue, skipWS_terminated, hdrop]
  rfl

/-- A number is left to its own function. -/
lemma parseJSONValue_number {b : UInt8} (hb : b = byte '-' ∨ isdigit b = true) (fuel : ℕ)
    (s : List UInt8) : parseJSONValue lib (fuel + 1) (terminated (b :: s)) =
      parseJSONNumber lib (terminated (b :: s)) := by
  have hne : ∀ b' : UInt8, b' ≠ byte '-' → isdigit b' = false → b ≠ b' := by
    rintro b' hminus hdigit rfl
    rcases hb with h | h
    · exact hminus h
    · rw [hdigit] at h
      cases h
  have hws : isWs b = false := by
    rcases hb with rfl | hb
    · decide
    · exact isWs_of_isdigit hb
  rw [parseJSONValue_cons lib hws, if_neg (hne _ (by decide) (by decide)),
    if_neg (hne _ (by decide) (by decide)), if_neg (hne _ (by decide) (by decide)),
    if_neg (hne _ (by decide) (by decide)), if_neg (hne _ (by decide) (by decide)),
    if_neg (hne _ (by decide) (by decide)), if_pos hb]

/-- A literal is read, or nothing is. -/
lemma parseLiteral_terminated {lit : List UInt8} (h0 : 0 ∉ lit) (s : List UInt8) (v : CFObject δ) :
    parseLiteral (terminated s) lit v =
      .ok (if lit.isPrefixOf s then some (v, terminated (s.drop lit.length)) else none) := by
  rw [parseLiteral, strncmp_terminated h0, ok_bind]
  split_ifs with hlit
  · obtain ⟨c, rfl⟩ := List.isPrefixOf_iff_prefix.mp hlit
    rw [step_terminated_append, ok_bind, List.drop_left]
  · rfl

/-- The loop over an array starts with skipping whitespace. -/
lemma arrayLoop_skip (fuel : ℕ) (a : List (CFObject δ)) (s : List UInt8) :
    arrayLoop lib fuel a (terminated (s.dropWhile isWs)) = arrayLoop lib fuel a (terminated s) := by
  cases fuel with
  | zero => rfl
  | succ fuel => simp only [arrayLoop, skipWS_terminated, List.dropWhile_idempotent, ok_bind]

/-- The loop over an object starts with skipping whitespace. -/
lemma objectLoop_skip (fuel : ℕ) (d : Entries δ) (s : List UInt8) :
    objectLoop lib fuel d (terminated (s.dropWhile isWs)) =
      objectLoop lib fuel d (terminated s) := by
  cases fuel with
  | zero => rfl
  | succ fuel => simp only [objectLoop, skipWS_terminated, List.dropWhile_idempotent, ok_bind]

/-- What follows the bracket that opens an array. -/
lemma parseJSONArray_cons (fuel : ℕ) (b : UInt8) (s : List UInt8) :
    parseJSONArray lib (fuel + 1) (terminated (b :: s)) =
      if (s.dropWhile isWs).head? = some (byte ']') then
        .ok (some (.array [], terminated (s.dropWhile isWs).tail))
      else arrayLoop lib fuel [] (terminated s) := by
  rw [parseJSONArray, step_terminated_cons, ok_bind, skipWS_terminated, ok_bind,
    skipIf_char (by decide), ok_bind]
  rw [← arrayLoop_skip]
  cases s.dropWhile isWs with
  | nil => rfl
  | cons b' s' =>
    by_cases hclose : b' = byte ']'
    · simp [skipOne, hclose]
    · simp [skipOne, hclose]

/-- What follows the brace that opens an object. -/
lemma parseJSONObject_cons (fuel : ℕ) (b : UInt8) (s : List UInt8) :
    parseJSONObject lib (fuel + 1) (terminated (b :: s)) =
      if (s.dropWhile isWs).head? = some (byte '}') then
        .ok (some (.dictionary [], terminated (s.dropWhile isWs).tail))
      else objectLoop lib fuel [] (terminated s) := by
  rw [parseJSONObject, step_terminated_cons, ok_bind, skipWS_terminated, ok_bind,
    skipIf_char (by decide), ok_bind]
  rw [← objectLoop_skip]
  cases s.dropWhile isWs with
  | nil => rfl
  | cons b' s' =>
    by_cases hclose : b' = byte '}'
    · simp [skipOne, hclose]
    · simp [skipOne, hclose]

/-- An array that is not empty is left to the loop. -/
lemma parseJSONValue_array (fuel : ℕ) {s : List UInt8} (hs : Starts (s.dropWhile isWs)) :
    parseJSONValue lib (fuel + 2) (terminated (byte '[' :: s)) =
      arrayLoop lib fuel [] (terminated s) := by
  obtain ⟨b, s', hbytes, -, hb, -⟩ := hs
  rw [parseJSONValue_cons lib (by decide), if_neg (by decide), if_pos rfl, parseJSONArray_cons,
    hbytes, if_neg (by simpa using hb)]

/-- An object that is not empty is left to the loop. -/
lemma parseJSONValue_object (fuel : ℕ) {s : List UInt8} (hs : Starts (s.dropWhile isWs)) :
    parseJSONValue lib (fuel + 2) (terminated (byte '{' :: s)) =
      objectLoop lib fuel [] (terminated s) := by
  obtain ⟨b, s', hbytes, -, -, hb⟩ := hs
  rw [parseJSONValue_cons lib (by decide), if_pos rfl, parseJSONObject_cons, hbytes,
    if_neg (by simpa using hb)]

/-! ## Readable values are read -/

/-- The value is read, and the cursor is left behind it; a number must not be continued by what
follows it. -/
def ParsesTo (t : Tree) : Prop := ∀ (r : List UInt8) (fuel : ℕ), t.IsContainer ∨ Stops r →
  3 * t.bytes.length ≤ fuel →
    parseJSONValue lib fuel (terminated (t.bytes ++ r)) = .ok (some (t.value lib, terminated r))

/-- The numbers of readable values are well-formed. -/
lemma readable_number (n : Number) (h : readable.number n) : n.WellFormed := h.1

/-- A value in an array, with what follows it. -/
lemma arrayLoop_slot {t : Tree} (ht : Follows readable t) (hp : ParsesTo lib t)
    {lead trail : List UInt8} (hlead : Blank lead) (htrail : Blank trail) {b : UInt8}
    (hb : b = byte ',' ∨ b = byte ']') {fuel : ℕ} (hfuel : 3 * t.bytes.length ≤ fuel)
    (a : List (CFObject δ)) (r : List UInt8) :
    arrayLoop lib (fuel + 1) a (terminated (lead ++ (t.bytes ++ (trail ++ b :: r)))) =
      if b = byte ',' then arrayLoop lib fuel (a ++ [t.value lib]) (terminated r)
      else .ok (some (.array (a ++ [t.value lib]), terminated r)) := by
  have hstart := (starts_tree readable_number ht).dropWhile hlead (trail ++ b :: r)
  have hstops : Stops (trail ++ b :: r) := by
    refine stops_of_blank htrail ?_ r
    rcases hb with h | h
    · exact Or.inl h
    · exact Or.inr (Or.inl h)
  have hparse := hp (trail ++ b :: r) fuel (Or.inr hstops) hfuel
  rw [← hstart] at hparse
  have hrest : (trail ++ b :: r).dropWhile isWs = b :: r := by
    refine dropWhile_blank htrail ?_ r
    rcases hb with rfl | rfl
    · decide
    · decide
  rw [arrayLoop_of_value lib a hparse, hrest]
  rcases hb with rfl | rfl
  · rfl
  · rfl

/-- The values of an array up to the last. -/
lemma arrayLoop_elements {done : List (List UInt8 × Tree × List UInt8)}
    (hd : ElementsFollow readable done) (hp : ∀ slot ∈ done, ParsesTo lib slot.2.1)
    {fuel k : ℕ} (hfuel : 3 * (elementsBytes done).length + k ≤ fuel) (a : List (CFObject δ))
    (s : List UInt8) : ∃ fuel', k ≤ fuel' ∧
      arrayLoop lib fuel a (terminated (elementsBytes done ++ s)) =
        arrayLoop lib fuel' (a ++ elementValues lib done) (terminated s) := by
  induction done generalizing fuel a with
  | nil =>
    rw [elementsBytes, List.length_nil] at hfuel
    exact ⟨fuel, by omega, by simp [elementsBytes, elementValues]⟩
  | cons slot done ih =>
    obtain ⟨lead, t, trail⟩ := slot
    obtain ⟨⟨hlead, ht, htrail⟩, hd⟩ := hd
    rw [elementsBytes] at hfuel
    simp only [List.length_append, List.length_cons] at hfuel
    obtain ⟨fuel, rfl⟩ : ∃ m, fuel = m + 1 := ⟨fuel - 1, by omega⟩
    have hcat : elementsBytes ((lead, t, trail) :: done) ++ s =
        lead ++ (t.bytes ++ (trail ++ byte ',' :: (elementsBytes done ++ s))) := by
      simp [elementsBytes]
    have hslot := arrayLoop_slot lib ht (hp _ List.mem_cons_self) hlead htrail (Or.inl rfl)
      (show 3 * t.bytes.length ≤ fuel by omega) a (elementsBytes done ++ s)
    obtain ⟨fuel', hk, hloop⟩ := ih hd (fun slot h => hp slot (List.mem_cons_of_mem _ h))
      (show 3 * (elementsBytes done).length + k ≤ fuel by omega) (a ++ [t.value lib])
    refine ⟨fuel', hk, ?_⟩
    rw [hcat, hslot, if_pos rfl, hloop, elementValues, List.append_assoc, List.singleton_append]

/-- A member of an object, with what follows it. -/
lemma objectLoop_slot {k : Key} (hk : readable.OfKey k) {t : Tree} (ht : Follows readable t)
    (hp : ParsesTo lib t) {trail : List UInt8} (htrail : Blank trail) {b : UInt8}
    (hb : b = byte ',' ∨ b = byte '}') {fuel : ℕ} (hfuel : 3 * t.bytes.length ≤ fuel)
    (d : Entries δ) (r : List UInt8) :
    objectLoop lib (fuel + 1) d (terminated (k.bytes ++ (t.bytes ++ (trail ++ b :: r)))) =
      if b = byte ',' then objectLoop lib fuel
        (cfDictionarySetValue d (stringValue k.name) (t.value lib)) (terminated r)
      else .ok (some (.dictionary (cfDictionarySetValue d (stringValue k.name) (t.value lib)),
        terminated r)) := by
  obtain ⟨hlead, hname, hbefore, hafter⟩ := hk
  have hcat : k.bytes ++ (t.bytes ++ (trail ++ b :: r)) = k.lead ++ (stringBytes k.name ++
      (k.before ++ byte ':' :: (k.after ++ (t.bytes ++ (trail ++ b :: r))))) := by
    simp [Key.bytes]
  have hkey := parseJSONString_append hname
    (k.before ++ byte ':' :: (k.after ++ (t.bytes ++ (trail ++ b :: r))))
  have hquote : Starts (stringBytes k.name) := starts_quote _
  rw [← hquote.dropWhile hlead] at hkey
  have hcolon : (k.before ++ byte ':' :: (k.after ++ (t.bytes ++ (trail ++ b :: r)))).dropWhile
      isWs = byte ':' :: (k.after ++ (t.bytes ++ (trail ++ b :: r))) :=
    dropWhile_blank hbefore (by decide) _
  have hstart := (starts_tree readable_number ht).dropWhile hafter (trail ++ b :: r)
  have hstops : Stops (trail ++ b :: r) := by
    refine stops_of_blank htrail ?_ r
    rcases hb with h | h
    · exact Or.inl h
    · exact Or.inr (Or.inr h)
  have hparse := hp (trail ++ b :: r) fuel (Or.inr hstops) hfuel
  rw [← hstart] at hparse
  have hrest : (trail ++ b :: r).dropWhile isWs = b :: r := by
    refine dropWhile_blank htrail ?_ r
    rcases hb with rfl | rfl
    · decide
    · decide
  rw [hcat, objectLoop_of_value lib d hkey hcolon hparse, hrest]
  rcases hb with rfl | rfl
  · rfl
  · rfl

/-- The members of an object up to the last. -/
lemma objectLoop_members {done : List (Key × Tree × List UInt8)}
    (hd : MembersFollow readable done) (hp : ∀ slot ∈ done, ParsesTo lib slot.2.1)
    {fuel k : ℕ} (hfuel : 3 * (membersBytes done).length + k ≤ fuel) (d : Entries δ)
    (s : List UInt8) : ∃ fuel', k ≤ fuel' ∧
      objectLoop lib fuel d (terminated (membersBytes done ++ s)) =
        objectLoop lib fuel' (storeMembers lib d done) (terminated s) := by
  induction done generalizing fuel d with
  | nil =>
    rw [membersBytes, List.length_nil] at hfuel
    exact ⟨fuel, by omega, by simp [membersBytes, storeMembers]⟩
  | cons slot done ih =>
    obtain ⟨key, t, trail⟩ := slot
    obtain ⟨⟨hkey, ht, htrail⟩, hd⟩ := hd
    rw [membersBytes] at hfuel
    simp only [List.length_append, List.length_cons] at hfuel
    obtain ⟨fuel, rfl⟩ : ∃ m, fuel = m + 1 := ⟨fuel - 1, by omega⟩
    have hcat : membersBytes ((key, t, trail) :: done) ++ s =
        key.bytes ++ (t.bytes ++ (trail ++ byte ',' :: (membersBytes done ++ s))) := by
      simp [membersBytes]
    have hslot := objectLoop_slot lib hkey ht (hp _ List.mem_cons_self) htrail (Or.inl rfl)
      (show 3 * t.bytes.length ≤ fuel by omega) d (membersBytes done ++ s)
    obtain ⟨fuel', hk, hloop⟩ := ih hd (fun slot h => hp slot (List.mem_cons_of_mem _ h))
      (show 3 * (membersBytes done).length + k ≤ fuel by omega)
      (cfDictionarySetValue d (stringValue key.name) (t.value lib))
    refine ⟨fuel', hk, ?_⟩
    rw [hcat, hslot, if_pos rfl, hloop, storeMembers]

/-- A literal is read. -/
private lemma parsesTo_literal {t : Tree} {b : UInt8} {lit : List UInt8}
    (hbytes : t.bytes = b :: lit)
    (hparse : ∀ fuel s, parseJSONValue lib (fuel + 1) (terminated (b :: s)) =
      parseLiteral (terminated (b :: s)) (b :: lit) (t.value lib)) (h0 : 0 ∉ b :: lit) :
    ParsesTo lib t := by
  intro r fuel _ hfuel
  rw [hbytes, List.length_cons] at hfuel
  obtain ⟨fuel, rfl⟩ : ∃ k, fuel = k + 1 := ⟨fuel - 1, by omega⟩
  rw [hbytes, List.cons_append, hparse, ← List.cons_append, parseLiteral_terminated h0,
    isPrefixOf_append_self, if_pos rfl, List.drop_left]

/-- **A readable value is read.**

**Proof sketch.** Induction over the value. A number is the one at the cursor because nothing
continues it; the loops over containers read one value after another. -/
theorem parse_tree {t : Tree} (ht : Follows readable t) : ParsesTo lib t := by
  induction t using treeInduction with
  | null =>
    exact @parsesTo_literal δ lib _ (byte 'n') (ascii "ull") rfl (fun _ _ => rfl) (by decide)
  | boolean b =>
    cases b with
    | true =>
      exact @parsesTo_literal δ lib _ (byte 't') (ascii "rue") rfl (fun _ _ => rfl)
        (by decide)
    | false =>
      exact @parsesTo_literal δ lib _ (byte 'f') (ascii "alse") rfl (fun _ _ => rfl)
        (by decide)
  | number n =>
    intro r fuel hr hfuel
    have hstops : Stops r := hr.resolve_left id
    obtain ⟨b, s, hbytes, hb⟩ := ht.1.exists_cons
    have hlen : 0 < n.bytes.length := by
      rw [hbytes]
      simp
    rw [Tree.bytes] at hfuel
    obtain ⟨fuel, rfl⟩ : ∃ k, fuel = k + 1 := ⟨fuel - 1, by omega⟩
    have hparse : parseJSONNumber lib (terminated (n.bytes ++ r)) =
        .ok (some (n.value lib, terminated r)) := by
      have hshort : n.bytes.length < 64 := ht.2
      rw [parseJSONNumber_eq, numberAt_append ht.1 hstops, if_pos hshort]
    rw [hbytes, List.cons_append] at hparse
    rw [Tree.bytes, hbytes, List.cons_append, parseJSONValue_number lib hb, hparse, Tree.value]
  | string items =>
    intro r fuel _ hfuel
    rw [Tree.bytes, stringBytes, List.length_cons] at hfuel
    obtain ⟨fuel, rfl⟩ : ∃ k, fuel = k + 1 := ⟨fuel - 1, by omega⟩
    have hparse := parseJSONString_append ht r
    have hcat : stringBytes items ++ r = byte '"' :: (bodyBytes items ++ [byte '"'] ++ r) := rfl
    rw [hcat] at hparse
    rw [Tree.bytes, hcat, parseJSONValue_cons lib (by decide), if_neg (by decide),
      if_neg (by decide), if_pos rfl, hparse]
    rfl
  | emptyArray blank =>
    intro r fuel _ hfuel
    rw [Tree.bytes, List.length_cons] at hfuel
    obtain ⟨fuel, rfl⟩ : ∃ k, fuel = k + 2 := ⟨fuel - 2, by omega⟩
    have hdrop : (blank ++ [byte ']'] ++ r).dropWhile isWs = byte ']' :: r := by
      rw [List.append_assoc]
      exact dropWhile_blank ht (by decide) r
    rw [Tree.bytes, List.cons_append, parseJSONValue_cons lib (by decide), if_neg (by decide),
      if_pos rfl, parseJSONArray_cons, hdrop, List.head?_cons, if_pos rfl]
    rfl
  | array done lead last trail ihd ihl =>
    intro r fuel _ hfuel
    obtain ⟨hd, hlead, hlast, htrail⟩ := ht
    have hdone := (elementsFollow_iff done).mp hd
    rw [Tree.bytes] at hfuel
    simp only [List.length_append, List.length_cons] at hfuel
    obtain ⟨fuel, rfl⟩ : ∃ k, fuel = k + 2 := ⟨fuel - 2, by omega⟩
    have hcat : (Tree.array done lead last trail).bytes ++ r = byte '[' :: (elementsBytes done ++
        (lead ++ (last.bytes ++ (trail ++ byte ']' :: r)))) := by
      simp [Tree.bytes]
    have hstart : Starts ((elementsBytes done ++ (lead ++ (last.bytes ++ (trail ++
        byte ']' :: r)))).dropWhile isWs) := by
      obtain ⟨b, s, hbytes, hb⟩ := starts_tree readable_number hlast
      exact starts_elements readable_number (fun _ h => h) hd hlead
        ⟨b, _, by rw [hbytes, List.cons_append], hb⟩
    obtain ⟨fuel', hk, hloop⟩ := arrayLoop_elements lib hd
      (fun slot h => ihd slot h (hdone slot h).2.1)
      (show 3 * (elementsBytes done).length + (3 * last.bytes.length + 1) ≤ fuel by omega) []
      (lead ++ (last.bytes ++ (trail ++ byte ']' :: r)))
    obtain ⟨fuel', rfl⟩ : ∃ k, fuel' = k + 1 := ⟨fuel' - 1, by omega⟩
    rw [hcat, parseJSONValue_array lib fuel hstart, hloop, arrayLoop_slot lib hlast (ihl hlast)
      hlead htrail (Or.inr rfl) (by omega), if_neg (by decide), Tree.value, List.nil_append]
  | emptyObject blank =>
    intro r fuel _ hfuel
    rw [Tree.bytes, List.length_cons] at hfuel
    obtain ⟨fuel, rfl⟩ : ∃ k, fuel = k + 2 := ⟨fuel - 2, by omega⟩
    have hdrop : (blank ++ [byte '}'] ++ r).dropWhile isWs = byte '}' :: r := by
      rw [List.append_assoc]
      exact dropWhile_blank ht (by decide) r
    rw [Tree.bytes, List.cons_append, parseJSONValue_cons lib (by decide), if_pos rfl,
      parseJSONObject_cons, hdrop, List.head?_cons, if_pos rfl]
    rfl
  | object done key last trail ihd ihl =>
    intro r fuel _ hfuel
    obtain ⟨hd, hkey, hlast, htrail⟩ := ht
    have hdone := (membersFollow_iff done).mp hd
    rw [Tree.bytes] at hfuel
    simp only [List.length_append, List.length_cons] at hfuel
    obtain ⟨fuel, rfl⟩ : ∃ k, fuel = k + 2 := ⟨fuel - 2, by omega⟩
    have hcat : (Tree.object done key last trail).bytes ++ r = byte '{' :: (membersBytes done ++
        (key.bytes ++ (last.bytes ++ (trail ++ byte '}' :: r)))) := by
      simp [Tree.bytes]
    have hkeyBytes : key.bytes ++ (last.bytes ++ (trail ++ byte '}' :: r)) = key.lead ++
        (byte '"' :: (bodyBytes key.name ++ [byte '"'] ++ (key.before ++ byte ':' :: key.after) ++
          (last.bytes ++ (trail ++ byte '}' :: r)))) := by
      simp [Key.bytes, stringBytes]
    have hstart : Starts ((membersBytes done ++ (key.bytes ++ (last.bytes ++ (trail ++
        byte '}' :: r)))).dropWhile isWs) := by
      rw [hkeyBytes]
      exact starts_members (fun _ h => h) hd hkey.1 (starts_quote _)
    obtain ⟨fuel', hk, hloop⟩ := objectLoop_members lib hd
      (fun slot h => ihd slot h (hdone slot h).2.1)
      (show 3 * (membersBytes done).length + (3 * last.bytes.length + 1) ≤ fuel by omega) []
      (key.bytes ++ (last.bytes ++ (trail ++ byte '}' :: r)))
    obtain ⟨fuel', rfl⟩ : ∃ k, fuel' = k + 1 := ⟨fuel' - 1, by omega⟩
    rw [hcat, parseJSONValue_object lib fuel hstart, hloop, objectLoop_slot lib hkey hlast
      (ihl hlast) htrail (Or.inr rfl) (by omega), if_neg (by decide), Tree.value]

/-! ## Unfinished values are read beyond their end -/

/-- A fault in a value of an array. -/
lemma arrayLoop_of_error {fuel : ℕ} {s : List UInt8} {e : Fault} (a : List (CFObject δ))
    (h : parseJSONValue lib fuel (terminated (s.dropWhile isWs)) = .error e) :
    arrayLoop lib (fuel + 1) a (terminated s) = .error e := by
  rw [arrayLoop]
  simp only [skipWS_terminated, ok_bind, h]
  rfl

/-- A fault in a key of an object. -/
lemma objectLoop_of_keyError {fuel : ℕ} {s : List UInt8} {e : Fault} (d : Entries δ)
    (h : parseJSONString (terminated (s.dropWhile isWs)) = .error e) :
    objectLoop lib (fuel + 1) d (terminated s) = .error e := by
  rw [objectLoop]
  simp only [skipWS_terminated, ok_bind, h]
  rfl

/-- A fault in a value of an object. -/
lemma objectLoop_of_error {fuel : ℕ} {s r r' k : List UInt8} {e : Fault} (d : Entries δ)
    (hkey : parseJSONString (terminated (s.dropWhile isWs)) = .ok (some (k, terminated r)))
    (hcolon : r.dropWhile isWs = byte ':' :: r')
    (h : parseJSONValue lib fuel (terminated (r'.dropWhile isWs)) = .error e) :
    objectLoop lib (fuel + 1) d (terminated s) = .error e := by
  rw [objectLoop_of_key lib d hkey, hcolon]
  simp only [if_true, h]
  rfl

/-- **An unfinished value is read beyond its end.**

**Proof sketch.** Induction over the value: the loops read what is complete before the unfinished
part, and the fault in this part is theirs. -/
theorem parse_unfinished {u : Unfinished} (hu : u.WellFormed) {fuel : ℕ}
    (hfuel : 3 * u.bytes.length ≤ fuel) :
    parseJSONValue lib fuel (terminated u.bytes) = .error .outOfBounds := by
  have hreads : ∀ done : List (List UInt8 × Tree × List UInt8), ElementsFollow readable done →
      ∀ slot ∈ done, ParsesTo lib slot.2.1 := fun done hd slot h =>
    parse_tree lib ((elementsFollow_iff done).mp hd slot h).2.1
  have hreads' : ∀ done : List (Key × Tree × List UInt8), MembersFollow readable done →
      ∀ slot ∈ done, ParsesTo lib slot.2.1 := fun done hd slot h =>
    parse_tree lib ((membersFollow_iff done).mp hd slot h).2.1
  induction u generalizing fuel with
  | string items cut =>
    rw [Unfinished.bytes, List.length_cons] at hfuel
    obtain ⟨fuel, rfl⟩ : ∃ k, fuel = k + 1 := ⟨fuel - 1, by omega⟩
    rw [Unfinished.bytes, parseJSONValue_cons lib (by decide), if_neg (by decide),
      if_neg (by decide), if_pos rfl, parseJSONString_cut hu.1 hu.2]
    rfl
  | array done lead next ih =>
    obtain ⟨hd, hlead, hnext⟩ := hu
    rw [Unfinished.bytes] at hfuel
    simp only [List.length_append, List.length_cons] at hfuel
    obtain ⟨fuel, rfl⟩ : ∃ k, fuel = k + 2 := ⟨fuel - 2, by omega⟩
    have hstart := starts_elements readable_number (fun _ h => h) hd hlead (starts_unfinished next)
    obtain ⟨fuel', hk, hloop⟩ := arrayLoop_elements lib hd (hreads done hd)
      (show 3 * (elementsBytes done).length + (3 * next.bytes.length + 1) ≤ fuel by omega) []
      (lead ++ next.bytes)
    obtain ⟨fuel', rfl⟩ : ∃ k, fuel' = k + 1 := ⟨fuel' - 1, by omega⟩
    have hdrop := (starts_unfinished next).dropWhile hlead []
    rw [List.append_nil] at hdrop
    have hparse := ih hnext (show 3 * next.bytes.length ≤ fuel' by omega)
    rw [← hdrop] at hparse
    rw [Unfinished.bytes, parseJSONValue_array lib fuel hstart, hloop,
      arrayLoop_of_error lib _ hparse]
  | key done lead items cut =>
    obtain ⟨hd, hlead, hi, hcut⟩ := hu
    rw [Unfinished.bytes] at hfuel
    simp only [List.length_append, List.length_cons] at hfuel
    obtain ⟨fuel, rfl⟩ : ∃ k, fuel = k + 2 := ⟨fuel - 2, by omega⟩
    have hstart := starts_members (fun _ h => h) hd hlead (starts_quote (bodyBytes items ++ cut))
    obtain ⟨fuel', hk, hloop⟩ := objectLoop_members lib hd (hreads' done hd)
      (show 3 * (membersBytes done).length + 1 ≤ fuel by omega) []
      (lead ++ (byte '"' :: (bodyBytes items ++ cut)))
    obtain ⟨fuel', rfl⟩ : ∃ k, fuel' = k + 1 := ⟨fuel' - 1, by omega⟩
    have hparse := parseJSONString_cut hi hcut
    rw [← dropWhile_blank hlead (show isWs (byte '"') = false by decide)] at hparse
    rw [Unfinished.bytes, parseJSONValue_object lib fuel hstart, hloop,
      objectLoop_of_keyError lib _ hparse]
  | member done k next ih =>
    obtain ⟨hd, ⟨hlead, hname, hbefore, hafter⟩, hnext⟩ := hu
    rw [Unfinished.bytes] at hfuel
    simp only [List.length_append, List.length_cons] at hfuel
    obtain ⟨fuel, rfl⟩ : ∃ m, fuel = m + 2 := ⟨fuel - 2, by omega⟩
    have hcat : k.bytes ++ next.bytes = k.lead ++ (stringBytes k.name ++ (k.before ++
        byte ':' :: (k.after ++ next.bytes))) := by
      simp [Key.bytes]
    have hstart : Starts ((membersBytes done ++ (k.bytes ++ next.bytes)).dropWhile isWs) := by
      rw [hcat]
      exact starts_members (fun _ h => h) hd hlead (starts_quote _)
    obtain ⟨fuel', hk, hloop⟩ := objectLoop_members lib hd (hreads' done hd)
      (show 3 * (membersBytes done).length + (3 * next.bytes.length + 1) ≤ fuel by omega) []
      (k.bytes ++ next.bytes)
    obtain ⟨fuel', rfl⟩ : ∃ m, fuel' = m + 1 := ⟨fuel' - 1, by omega⟩
    have hkey := parseJSONString_append hname (k.before ++ byte ':' :: (k.after ++ next.bytes))
    have hquote : Starts (stringBytes k.name) := starts_quote _
    rw [← hquote.dropWhile hlead, ← hcat] at hkey
    have hcolon : (k.before ++ byte ':' :: (k.after ++ next.bytes)).dropWhile isWs =
        byte ':' :: (k.after ++ next.bytes) := dropWhile_blank hbefore (by decide) _
    have hdrop := (starts_unfinished next).dropWhile hafter []
    rw [List.append_nil] at hdrop
    have hparse := ih hnext (show 3 * next.bytes.length ≤ fuel' by omega)
    rw [← hdrop] at hparse
    rw [Unfinished.bytes, parseJSONValue_object lib fuel hstart, hloop,
      objectLoop_of_error lib _ hkey hcolon hparse]

end Asteros.Foundation.Json
