import Asteros.CoreFoundation.PropertyListReader

set_option autoImplicit false

/-!
# The property list reader on arbitrary bytes

On every buffer the reader ends without a read outside the buffer, and it returns `NULL` exactly
when it has set an error, once. The argument is one contract (`Settled`) for the three parsing
functions, by induction on the fuel: each keeps the cursor inside what it was given, and a value
is at least one byte long, which is what makes twice the length enough fuel.

## Main definitions

* `Settled` — what an outcome says about cursor and messages.

## Main results

* `parse_settles` — the contract of the parsing functions.
* `createFromXMLData_safe` — the contract of the reader.
-/

namespace Asteros.CoreFoundation

open Asteros.Libc

variable {δ : Type}

/-- The outcome of a parsing function started in `st`: the cursor stays inside what was left, a
`NULL` comes with exactly one new message, and a value with none. -/
structure Settled (st : ReadState) (r : Parsed δ) : Prop where
  suffix : r.2.cursor <:+ st.cursor
  null : r.1 = none → ∃ msg, r.2.errors = st.errors ++ [msg]
  value : r.1 ≠ none → r.2.errors = st.errors

/-- A run that ends without a fault, with a settled outcome. -/
def Settles (st : ReadState) (x : Except Fault (Parsed δ)) : Prop := ∃ r, x = .ok r ∧ Settled st r

/-- An outcome that is settled from further on is settled from here. -/
lemma Settled.of_suffix {st : ReadState} {c : Cursor} {r : Parsed δ} (hc : c <:+ st.cursor)
    (h : Settled ⟨c, st.errors⟩ r) : Settled st r :=
  ⟨h.suffix.trans hc, h.null, h.value⟩

/-- A run that settles from further on settles from here. -/
lemma Settles.of_suffix {st : ReadState} {c : Cursor} {x : Except Fault (Parsed δ)}
    (hc : c <:+ st.cursor) (h : Settles ⟨c, st.errors⟩ x) : Settles st x := by
  obtain ⟨r, hr, hset⟩ := h
  exact ⟨r, hr, hset.of_suffix hc⟩

/-- Setting an error and returning `NULL` settles. -/
lemma settles_setError (st : ReadState) (msg : ReadError) :
    Settles st (setError st msg : Except Fault (Parsed δ)) :=
  ⟨_, rfl, List.suffix_rfl, fun _ => ⟨msg, rfl⟩, fun h => absurd rfl h⟩

/-- Returning a value settles. -/
lemma settles_value (st : ReadState) (v : CFObject δ) : Settles st (.ok (some v, st)) :=
  ⟨_, rfl, List.suffix_rfl, fun h => absurd h (Option.some_ne_none v), fun _ => rfl⟩

/-- What follows a tag is inside the buffer. -/
lemma afterTag_suffix (c : Cursor) : afterTag c <:+ c :=
  (List.tail_suffix _).trans (List.dropWhile_suffix _)

/-- A text element settles. -/
lemma settles_textElement (name : List UInt8) (msg : ReadError) (make : List UInt8 → CFObject δ)
    (st : ReadState) : Settles st (textElement name msg make st) := by
  obtain ⟨closed, c, hclose, hsuf⟩ :=
    exists_expectCloseTag (st.cursor.dropWhile (· != byte '<')) name
  have hc : c <:+ st.cursor := hsuf.trans (List.dropWhile_suffix _)
  simp only [textElement, readText_eq, ok_bind, hclose]
  cases closed with
  | false => exact (settles_setError ⟨c, st.errors⟩ msg).of_suffix hc
  | true => exact (settles_value ⟨c, st.errors⟩ _).of_suffix hc

variable (strtod : CString → δ) (mutability : MutabilityOptions)

/-- What `parseValue` does with a state: it settles, and a value takes at least one byte. -/
def ValueSettles (fuel : ℕ) : Prop := ∀ st : ReadState, 2 * st.cursor.length < fuel →
  ∃ r, parseValue strtod mutability fuel st = .ok r ∧ Settled st r ∧
    (r.1 ≠ none → r.2.cursor.length < st.cursor.length)

/-- The loop of `parseDict` settles if `parseValue` and the rest of the loop do. -/
lemma dict_settles {fuel : ℕ} (hvalue : ValueSettles strtod mutability fuel)
    (hdict : ∀ (d : Entries δ) (st : ReadState), 2 * st.cursor.length + 1 < fuel →
      Settles st (parseDict strtod mutability fuel d st))
    (d : Entries δ) (st : ReadState) (hfuel : 2 * st.cursor.length < fuel) :
    Settles st (parseDict strtod mutability (fuel + 1) d st) := by
  have hws : st.cursor.dropWhile isWs <:+ st.cursor := List.dropWhile_suffix _
  simp only [parseDict, skipWs_eq, ok_bind, closeTagAhead_eq, atByte_eq]
  refine Settles.of_suffix hws ?_
  cases hahead : (ascii "</").isPrefixOf (st.cursor.dropWhile isWs) with
  | true =>
    obtain ⟨closed, c, hclose, hsuf⟩ :=
      exists_expectCloseTag (st.cursor.dropWhile isWs) (ascii "dict")
    simp only [if_true, hclose, ok_bind]
    refine Settles.of_suffix hsuf ?_
    cases closed with
    | false => exact settles_setError ⟨c, st.errors⟩ _
    | true =>
      simp only [Bool.not_true, Bool.false_eq_true, if_false]
      split_ifs
      · exact settles_value ⟨c, st.errors⟩ _
      · exact settles_value ⟨c, st.errors⟩ _
  | false =>
    simp only [Bool.false_eq_true, if_false]
    cases hc : st.cursor.dropWhile isWs with
    | nil => exact settles_setError ⟨[], st.errors⟩ _
    | cons b c =>
      have hlen : c.length < st.cursor.length := by
        have h := hws.length_le
        rw [hc] at h
        exact h
      by_cases hb : b = byte '<'
      · obtain ⟨slash, htag⟩ := readTagName_eq c
        obtain ⟨closed, c', hclose, hsuf⟩ :=
          exists_expectCloseTag ((afterTag c).dropWhile (· != byte '<')) (ascii "key")
        have htext : (afterTag c).dropWhile (· != byte '<') <:+ c :=
          (List.dropWhile_suffix _).trans (afterTag_suffix c)
        simp only [hb, List.head?_cons, BEq.rfl, Bool.not_true, Bool.false_eq_true, if_false,
          advance_cons_one, ok_bind, htag, readText_eq, hclose]
        refine Settles.of_suffix (List.suffix_cons _ c) ?_
        by_cases hkey : (CString.ofBytes (c.takeWhile isNameChar)).bytes ≠ ascii "key"
        · rw [if_pos hkey]
          exact (settles_setError ⟨afterTag c, st.errors⟩ _).of_suffix (afterTag_suffix c)
        · rw [if_neg hkey]
          refine Settles.of_suffix (hsuf.trans htext) ?_
          cases closed with
          | false => exact settles_setError ⟨c', st.errors⟩ _
          | true =>
            have hlen' : c'.length < st.cursor.length :=
              (hsuf.trans htext).length_le.trans_lt hlen
            obtain ⟨r, hr, hset, hprog⟩ := hvalue ⟨c', st.errors⟩ (by
              show 2 * c'.length < fuel
              omega)
            simp only [Bool.not_true, Bool.false_eq_true, if_false, hr, ok_bind]
            obtain ⟨val, st'⟩ := r
            cases val with
            | none => exact ⟨_, rfl, hset⟩
            | some val =>
              have herr : st'.errors = st.errors := hset.value (Option.some_ne_none val)
              have hshort : st'.cursor.length < c'.length := hprog (Option.some_ne_none val)
              have hrest := hdict (cfDictionarySetValue d
                (unescape ((afterTag c).takeWhile (· != byte '<'))) val) st' (by omega)
              obtain ⟨r', hr', hset'⟩ := hrest
              refine ⟨r', hr', hset'.suffix.trans hset.suffix, ?_, ?_⟩
              · rw [← herr]
                exact hset'.null
              · rw [← herr]
                exact hset'.value
      · have hne : (some b == some (byte '<')) = false := by simpa using hb
        simp only [List.head?_cons, hne, Bool.not_false, if_true]
        exact settles_setError ⟨b :: c, st.errors⟩ _

/-- The loop of `parseArray` settles if `parseValue` and the rest of the loop do. -/
lemma array_settles {fuel : ℕ} (hvalue : ValueSettles strtod mutability fuel)
    (harray : ∀ (a : List (CFObject δ)) (st : ReadState), 2 * st.cursor.length + 1 < fuel →
      Settles st (parseArray strtod mutability fuel a st))
    (a : List (CFObject δ)) (st : ReadState) (hfuel : 2 * st.cursor.length < fuel) :
    Settles st (parseArray strtod mutability (fuel + 1) a st) := by
  have hws : st.cursor.dropWhile isWs <:+ st.cursor := List.dropWhile_suffix _
  simp only [parseArray, skipWs_eq, ok_bind, closeTagAhead_eq]
  refine Settles.of_suffix hws ?_
  cases hahead : (ascii "</").isPrefixOf (st.cursor.dropWhile isWs) with
  | true =>
    obtain ⟨closed, c, hclose, hsuf⟩ :=
      exists_expectCloseTag (st.cursor.dropWhile isWs) (ascii "array")
    simp only [if_true, hclose, ok_bind]
    refine Settles.of_suffix hsuf ?_
    cases closed with
    | false => exact settles_setError ⟨c, st.errors⟩ _
    | true => exact settles_value ⟨c, st.errors⟩ _
  | false =>
    have hlen := hws.length_le
    obtain ⟨r, hr, hset, hprog⟩ := hvalue ⟨st.cursor.dropWhile isWs, st.errors⟩ (by
      show 2 * (st.cursor.dropWhile isWs).length < fuel
      omega)
    simp only [Bool.false_eq_true, if_false, hr, ok_bind]
    obtain ⟨val, st'⟩ := r
    cases val with
    | none => exact ⟨_, rfl, hset⟩
    | some val =>
      have herr : st'.errors = st.errors := hset.value (Option.some_ne_none val)
      have hshort : st'.cursor.length < (st.cursor.dropWhile isWs).length :=
        hprog (Option.some_ne_none val)
      obtain ⟨r', hr', hset'⟩ := harray (a ++ [val]) st' (by omega)
      refine ⟨r', hr', hset'.suffix.trans hset.suffix, ?_, ?_⟩
      · rw [← herr]
        exact hset'.null
      · rw [← herr]
        exact hset'.value

/-- `parseValue` settles if the two loops do. -/
lemma value_settles {fuel : ℕ}
    (hdict : ∀ (d : Entries δ) (st : ReadState), 2 * st.cursor.length + 1 < fuel →
      Settles st (parseDict strtod mutability fuel d st))
    (harray : ∀ (a : List (CFObject δ)) (st : ReadState), 2 * st.cursor.length + 1 < fuel →
      Settles st (parseArray strtod mutability fuel a st)) :
    ValueSettles strtod mutability (fuel + 1) := by
  intro st hfuel
  have hws : st.cursor.dropWhile isWs <:+ st.cursor := List.dropWhile_suffix _
  -- a settled outcome from a strictly later cursor takes at least one byte
  have hfurther : ∀ {c : Cursor} {x : Except Fault (Parsed δ)}, c <:+ st.cursor →
      c.length < st.cursor.length → Settles ⟨c, st.errors⟩ x →
      ∃ r, x = .ok r ∧ Settled st r ∧ (r.1 ≠ none → r.2.cursor.length < st.cursor.length) := by
    rintro c x hc hlen ⟨r, hr, hset⟩
    exact ⟨r, hr, hset.of_suffix hc, fun _ => hset.suffix.length_le.trans_lt hlen⟩
  -- and a `NULL` takes any number
  have hnull : ∀ (c : Cursor) (msg : ReadError), c <:+ st.cursor →
      ∃ r : Parsed δ, setError ⟨c, st.errors⟩ msg = .ok r ∧ Settled st r ∧
        (r.1 ≠ none → r.2.cursor.length < st.cursor.length) := by
    intro c msg hc
    obtain ⟨r, hr, hset⟩ := (settles_setError ⟨c, st.errors⟩ msg : Settles _ (setError _ msg))
    cases hr
    exact ⟨_, rfl, hset.of_suffix hc, fun h => absurd rfl h⟩
  simp only [parseValue, skipWs_eq, ok_bind, atByte_eq]
  cases hc : st.cursor.dropWhile isWs with
  | nil => exact hnull [] _ List.nil_suffix
  | cons b c =>
    rw [hc] at hws
    by_cases hb : b = byte '<'
    · obtain ⟨slash, htag⟩ := readTagName_eq c
      have hafter : afterTag c <:+ st.cursor :=
        (afterTag_suffix c).trans ((List.suffix_cons b c).trans hws)
      have hlen : (afterTag c).length < st.cursor.length :=
        ((afterTag_suffix c).length_le.trans_lt (Nat.lt_succ_self c.length)).trans_le
          hws.length_le
      have hfuel' : 2 * (afterTag c).length + 1 < fuel := by omega
      simp only [hb, List.head?_cons, BEq.rfl, Bool.not_true, Bool.false_eq_true, if_false,
        advance_cons_one, ok_bind, htag]
      split_ifs
      · exact hfurther hafter hlen (hdict [] ⟨afterTag c, st.errors⟩ hfuel')
      · exact hfurther hafter hlen (harray [] ⟨afterTag c, st.errors⟩ hfuel')
      · exact hfurther hafter hlen (settles_value ⟨afterTag c, st.errors⟩ _)
      · exact hfurther hafter hlen (settles_value ⟨afterTag c, st.errors⟩ _)
      · exact hfurther hafter hlen (settles_textElement _ _ _ ⟨afterTag c, st.errors⟩)
      · exact hfurther hafter hlen (settles_textElement _ _ _ ⟨afterTag c, st.errors⟩)
      · exact hfurther hafter hlen (settles_textElement _ _ _ ⟨afterTag c, st.errors⟩)
      · exact hfurther hafter hlen (settles_textElement _ _ _ ⟨afterTag c, st.errors⟩)
      · exact hnull _ _ hafter
    · have hne : (some b == some (byte '<')) = false := by simpa using hb
      simp only [List.head?_cons, hne, Bool.not_false, if_true]
      exact hnull _ _ hws

/-- **The contract of the parsing functions**: with fuel for twice the bytes that are left, every
one of them settles.

**Proof sketch.** Induction on the fuel; the three lemmas above are the step. -/
lemma parse_settles (fuel : ℕ) : ValueSettles strtod mutability fuel ∧
    (∀ (d : Entries δ) (st : ReadState), 2 * st.cursor.length + 1 < fuel →
      Settles st (parseDict strtod mutability fuel d st)) ∧
    ∀ (a : List (CFObject δ)) (st : ReadState), 2 * st.cursor.length + 1 < fuel →
      Settles st (parseArray strtod mutability fuel a st) := by
  induction fuel with
  | zero =>
    exact ⟨fun st h => absurd h (by omega), fun d st h => absurd h (by omega),
      fun a st h => absurd h (by omega)⟩
  | succ fuel ih =>
    obtain ⟨hvalue, hdict, harray⟩ := ih
    exact ⟨value_settles strtod mutability hdict harray,
      fun d st h => dict_settles strtod mutability hvalue hdict d st (by omega),
      fun a st h => array_settles strtod mutability hvalue harray a st (by omega)⟩

/-- Skipping the prolog ends inside the buffer. -/
lemma exists_skipProlog {fuel : ℕ} {c : Cursor} (h : c.length < fuel) :
    ∃ c', skipProlog fuel c = .ok c' ∧ c' <:+ c := by
  induction fuel generalizing c with
  | zero => omega
  | succ fuel ih =>
    have hws : c.dropWhile isWs <:+ c := List.dropWhile_suffix _
    simp only [skipProlog, skipWs_eq, ok_bind]
    match hc : c.dropWhile isWs with
    | [] => exact ⟨[], rfl, List.nil_suffix⟩
    | [b] => exact ⟨[b], rfl, hc ▸ hws⟩
    | b :: b' :: d =>
      rw [hc] at hws
      have hgo : 1 < (b :: b' :: d).length := by simp
      simp only [hgo, if_true, deref_cons_zero, deref_cons_one, ok_bind]
      split_ifs with hb hb'
      · -- the directive starts with two bytes that are not its end
        have hskip : ((b :: b' :: d).dropWhile (· != byte '>')).tail <:+ d := by
          have hlt : (b != byte '>') = true := by rw [hb]; rfl
          have hmark : (b' != byte '>') = true := by rcases hb' with rfl | rfl <;> rfl
          rw [List.dropWhile_cons_of_pos (p := (· != byte '>')) hlt,
            List.dropWhile_cons_of_pos (p := (· != byte '>')) hmark]
          exact afterTag_suffix d
        have hlen := hws.length_le
        have hlen' := hskip.length_le
        simp only [List.length_cons] at hlen
        obtain ⟨c', hc', hsuf⟩ := ih (c := ((b :: b' :: d).dropWhile (· != byte '>')).tail)
          (by omega)
        refine ⟨c', by rw [skipDirective_eq, ok_bind, hc'], ?_⟩
        exact hsuf.trans (hskip.trans ((List.suffix_cons b' d).trans
          ((List.suffix_cons b _).trans hws)))
      · exact ⟨_, rfl, hws⟩
      · exact ⟨_, rfl, hws⟩

/-! ## Fuel is only a bound -/

/-- More fuel does not change the outcome of a run of `parseValue`, if it does not change those
of the loops. -/
private lemma value_mono {fuel : ℕ}
    (hdict : ∀ (d : Entries δ) (st : ReadState) (r : Parsed δ),
      parseDict strtod mutability fuel d st = .ok r →
        parseDict strtod mutability (fuel + 1) d st = .ok r)
    (harray : ∀ (a : List (CFObject δ)) (st : ReadState) (r : Parsed δ),
      parseArray strtod mutability fuel a st = .ok r →
        parseArray strtod mutability (fuel + 1) a st = .ok r)
    (st : ReadState) (r : Parsed δ) (h : parseValue strtod mutability (fuel + 1) st = .ok r) :
    parseValue strtod mutability (fuel + 2) st = .ok r := by
  rw [parseValue] at h ⊢
  simp only [skipWs_eq, ok_bind, atByte_eq] at h ⊢
  cases hc : st.cursor.dropWhile isWs with
  | nil =>
    rw [hc] at h
    exact h
  | cons b c =>
    rw [hc] at h
    by_cases hb : b = byte '<'
    · obtain ⟨slash, htag⟩ := readTagName_eq c
      simp only [hb, List.head?_cons, BEq.rfl, Bool.not_true, Bool.false_eq_true, if_false,
        advance_cons_one, ok_bind, htag] at h ⊢
      split_ifs at h ⊢
      · exact hdict _ _ _ h
      · exact harray _ _ _ h
      all_goals exact h
    · have hne : (some b == some (byte '<')) = false := by simpa using hb
      simp only [List.head?_cons, hne, Bool.not_false, if_true] at h ⊢
      exact h

/-- More fuel does not change the outcome of a run of the loop of `parseArray`. -/
private lemma array_mono {fuel : ℕ}
    (hvalue : ∀ (st : ReadState) (r : Parsed δ), parseValue strtod mutability fuel st = .ok r →
      parseValue strtod mutability (fuel + 1) st = .ok r)
    (harray : ∀ (a : List (CFObject δ)) (st : ReadState) (r : Parsed δ),
      parseArray strtod mutability fuel a st = .ok r →
        parseArray strtod mutability (fuel + 1) a st = .ok r)
    (a : List (CFObject δ)) (st : ReadState) (r : Parsed δ)
    (h : parseArray strtod mutability (fuel + 1) a st = .ok r) :
    parseArray strtod mutability (fuel + 2) a st = .ok r := by
  rw [parseArray] at h ⊢
  simp only [skipWs_eq, ok_bind, closeTagAhead_eq] at h ⊢
  split_ifs at h ⊢
  · exact h
  · cases hv : parseValue strtod mutability fuel ⟨st.cursor.dropWhile isWs, st.errors⟩ with
    | error e => simp only [hv] at h; cases h
    | ok r' =>
      obtain ⟨val, st'⟩ := r'
      simp only [hv, hvalue _ _ hv, ok_bind] at h ⊢
      cases val with
      | none => exact h
      | some val => exact harray _ _ _ h

/-- More fuel does not change the outcome of a run of the loop of `parseDict`. -/
private lemma dict_mono {fuel : ℕ}
    (hvalue : ∀ (st : ReadState) (r : Parsed δ), parseValue strtod mutability fuel st = .ok r →
      parseValue strtod mutability (fuel + 1) st = .ok r)
    (hdict : ∀ (d : Entries δ) (st : ReadState) (r : Parsed δ),
      parseDict strtod mutability fuel d st = .ok r →
        parseDict strtod mutability (fuel + 1) d st = .ok r)
    (d : Entries δ) (st : ReadState) (r : Parsed δ)
    (h : parseDict strtod mutability (fuel + 1) d st = .ok r) :
    parseDict strtod mutability (fuel + 2) d st = .ok r := by
  rw [parseDict] at h ⊢
  simp only [skipWs_eq, ok_bind, closeTagAhead_eq, atByte_eq] at h ⊢
  cases hahead : (ascii "</").isPrefixOf (st.cursor.dropWhile isWs) with
  | true =>
    simp only [hahead, if_true] at h ⊢
    exact h
  | false =>
    simp only [hahead, Bool.false_eq_true, if_false] at h ⊢
    cases hc : st.cursor.dropWhile isWs with
    | nil =>
      rw [hc] at h
      exact h
    | cons b c =>
      rw [hc] at h
      by_cases hb : b = byte '<'
      · obtain ⟨slash, htag⟩ := readTagName_eq c
        obtain ⟨closed, c', hclose, -⟩ :=
          exists_expectCloseTag ((afterTag c).dropWhile (· != byte '<')) (ascii "key")
        simp only [hb, List.head?_cons, BEq.rfl, Bool.not_true, Bool.false_eq_true, if_false,
          advance_cons_one, ok_bind, htag, readText_eq, hclose] at h ⊢
        by_cases hkey : (CString.ofBytes (c.takeWhile isNameChar)).bytes ≠ ascii "key"
        · rw [if_pos hkey] at h ⊢
          exact h
        · rw [if_neg hkey] at h ⊢
          cases closed with
          | false => exact h
          | true =>
            simp only [Bool.not_true, Bool.false_eq_true, if_false] at h ⊢
            cases hv : parseValue strtod mutability fuel ⟨c', st.errors⟩ with
            | error e => simp only [hv] at h; cases h
            | ok r' =>
              obtain ⟨val, st'⟩ := r'
              simp only [hv, hvalue _ _ hv, ok_bind] at h ⊢
              cases val with
              | none => exact h
              | some val => exact hdict _ _ _ h
      · have hne : (some b == some (byte '<')) = false := by simpa using hb
        simp only [List.head?_cons, hne, Bool.not_false, if_true] at h ⊢
        exact h

/-- **More fuel does not change an outcome.** -/
lemma parse_mono (fuel : ℕ) :
    (∀ (st : ReadState) (r : Parsed δ), parseValue strtod mutability fuel st = .ok r →
      parseValue strtod mutability (fuel + 1) st = .ok r) ∧
    (∀ (d : Entries δ) (st : ReadState) (r : Parsed δ),
      parseDict strtod mutability fuel d st = .ok r →
        parseDict strtod mutability (fuel + 1) d st = .ok r) ∧
    ∀ (a : List (CFObject δ)) (st : ReadState) (r : Parsed δ),
      parseArray strtod mutability fuel a st = .ok r →
        parseArray strtod mutability (fuel + 1) a st = .ok r := by
  induction fuel with
  | zero =>
    refine ⟨fun st r h => ?_, fun d st r h => ?_, fun a st r h => ?_⟩
    · cases h
    · cases h
    · cases h
  | succ fuel ih =>
    obtain ⟨hvalue, hdict, harray⟩ := ih
    exact ⟨value_mono strtod mutability hdict harray, dict_mono strtod mutability hvalue hdict,
      array_mono strtod mutability hvalue harray⟩

/-- A value that is read with some fuel is read with any more. -/
lemma parseValue_mono {fuel fuel' : ℕ} (hle : fuel ≤ fuel') {st : ReadState} {r : Parsed δ}
    (h : parseValue strtod mutability fuel st = .ok r) :
    parseValue strtod mutability fuel' st = .ok r := by
  induction hle with
  | refl => exact h
  | step _ ih => exact (parse_mono strtod mutability _).1 st r ih

/-- More fuel does not change where the prolog ends. -/
lemma skipProlog_mono {fuel fuel' : ℕ} (hle : fuel ≤ fuel') {c c' : Cursor}
    (h : skipProlog fuel c = .ok c') : skipProlog fuel' c = .ok c' := by
  induction fuel generalizing c fuel' with
  | zero => cases h
  | succ fuel ih =>
    obtain ⟨fuel', rfl⟩ : ∃ k, fuel' = k + 1 := ⟨fuel' - 1, by omega⟩
    simp only [skipProlog, skipWs_eq, ok_bind] at h ⊢
    split_ifs at h ⊢
    · cases hd : deref (c.dropWhile isWs) 0 with
      | error e => simp only [hd] at h; cases h
      | ok b =>
        simp only [hd, ok_bind] at h ⊢
        split_ifs at h ⊢
        · cases hd' : deref (c.dropWhile isWs) 1 with
          | error e => simp only [hd'] at h; cases h
          | ok b' =>
            simp only [hd', ok_bind, skipDirective_eq] at h ⊢
            split_ifs at h ⊢
            · exact ih (by omega) h
            · exact h
        · exact h
    · exact h

/-- More fuel does not change the outcome of the reader. -/
lemma readDocument_mono {fuel fuel' : ℕ} (hle : fuel ≤ fuel') {xmlData : List UInt8}
    {r : Parsed δ} (h : readDocument strtod mutability fuel xmlData = .ok r) :
    readDocument strtod mutability fuel' xmlData = .ok r := by
  unfold readDocument at h ⊢
  cases hp : skipProlog fuel xmlData with
  | error e => simp only [hp] at h; cases h
  | ok c =>
    simp only [hp, skipProlog_mono hle hp, ok_bind, skipWs_eq, atByte_eq] at h ⊢
    cases hc : c.dropWhile isWs with
    | nil =>
      rw [hc] at h
      exact h
    | cons b d =>
      rw [hc] at h
      by_cases hb : b = byte '<'
      · obtain ⟨slash, htag⟩ := readTagName_eq d
        simp only [hb, List.head?_cons, BEq.rfl, Bool.not_true, Bool.false_eq_true, if_false,
          advance_cons_one, ok_bind, htag] at h ⊢
        split_ifs at h ⊢
        · exact h
        · cases hv : parseValue strtod mutability fuel ⟨afterTag d, []⟩ with
          | error e => simp only [hv] at h; cases h
          | ok r' =>
            simp only [hv, parseValue_mono strtod mutability hle hv, ok_bind] at h ⊢
            exact h
      · have hne : (some b == some (byte '<')) = false := by simpa using hb
        simp only [List.head?_cons, hne, Bool.not_false, if_true] at h ⊢
        exact h

/-! ## The reader -/

/-- Enough fuel makes the reader settle. -/
lemma readDocument_settles {fuel : ℕ} {xmlData : List UInt8}
    (hfuel : readFuel xmlData.length ≤ fuel) :
    Settles (δ := δ) ⟨xmlData, []⟩ (readDocument strtod mutability fuel xmlData) := by
  obtain ⟨c, hprolog, hsuf⟩ := exists_skipProlog
    (show xmlData.length < fuel by unfold readFuel at hfuel; omega)
  have hws : c.dropWhile isWs <:+ xmlData := (List.dropWhile_suffix _).trans hsuf
  simp only [readDocument, hprolog, skipWs_eq, ok_bind, atByte_eq]
  refine Settles.of_suffix hws ?_
  cases hc : c.dropWhile isWs with
  | nil => exact settles_setError ⟨[], []⟩ _
  | cons b d =>
    rw [hc] at hws
    by_cases hb : b = byte '<'
    · obtain ⟨slash, htag⟩ := readTagName_eq d
      have hlen := hws.length_le
      have hlen' := (afterTag_suffix d).length_le
      simp only [List.length_cons] at hlen
      simp only [hb, List.head?_cons, BEq.rfl, Bool.not_true, Bool.false_eq_true, if_false,
        advance_cons_one, ok_bind, htag]
      refine Settles.of_suffix (List.suffix_cons _ d) ?_
      refine Settles.of_suffix (afterTag_suffix d) ?_
      split_ifs
      · exact settles_setError ⟨afterTag d, []⟩ _
      · obtain ⟨r, hr, hset, -⟩ := (parse_settles strtod mutability fuel).1 ⟨afterTag d, []⟩ (by
          unfold readFuel at hfuel
          show 2 * (afterTag d).length < fuel
          omega)
        obtain ⟨result, st⟩ := r
        simp only [hr, ok_bind]
        cases result with
        | none => exact ⟨_, rfl, hset⟩
        | some v =>
          have herr : st.errors = [] := hset.value (Option.some_ne_none v)
          obtain ⟨closed, c', hclose, hsuf'⟩ := exists_expectCloseTag st.cursor (ascii "plist")
          have hc' : c' <:+ afterTag d := hsuf'.trans hset.suffix
          simp only [hclose, ok_bind, herr]
          refine Settles.of_suffix hc' ?_
          cases closed with
          | false => exact settles_setError ⟨c', []⟩ _
          | true => exact settles_value ⟨c', []⟩ v
    · have hne : (some b == some (byte '<')) = false := by simpa using hb
      simp only [List.head?_cons, hne, Bool.not_false, if_true]
      exact settles_setError ⟨b :: d, []⟩ _

/-- **The reader on arbitrary bytes.** For every buffer and every mutability option there is one
outcome, whatever the fuel from a bound on: the run ends without a read outside the buffer and
with the cursor inside it, and the result is `NULL` exactly when the error string was set, which
happens at most once.

**Proof sketch.** Skipping the prolog and the `<plist>` tag leaves less than the whole buffer,
which the fuel covers (`parse_settles`); each `NULL` of the reader itself sets one message. -/
theorem createFromXMLData_safe (xmlData : List UInt8) : ∃ (result : Option (CFObject δ))
    (st : ReadState), (∀ fuel, readFuel xmlData.length ≤ fuel →
      readDocument strtod mutability fuel xmlData = .ok (result, st)) ∧
    st.cursor <:+ xmlData ∧ (result = none ↔ st.errors ≠ []) ∧ st.errors.length ≤ 1 := by
  obtain ⟨⟨result, st⟩, hr, hset⟩ :=
    readDocument_settles (δ := δ) strtod mutability (Nat.le_refl (readFuel xmlData.length))
  refine ⟨result, st, fun fuel hle => readDocument_mono strtod mutability hle hr, hset.suffix, ?_⟩
  cases result with
  | none =>
    obtain ⟨msg, hmsg⟩ := hset.null rfl
    have herr : st.errors = [msg] := hmsg
    exact ⟨by simp [herr], by simp [herr]⟩
  | some v =>
    have herr : st.errors = [] := hset.value (Option.some_ne_none v)
    exact ⟨by simp [herr], by simp [herr]⟩

end Asteros.CoreFoundation
