import Asteros.Foundation.Json.Reading

set_option autoImplicit false

/-!
# Every outcome of the JSON reader comes from a value

Whatever the text, what the reader returns is the value of a readable tree at its cursor, and a
fault is that of an unfinished one. So the reader has no faults but in an escape that lacks
characters, and it always ends.

## Main definitions

* `Reads` — an outcome of the reader comes from a value at its cursor.

## Main results

* `parse_sound` — every outcome comes from a value.
-/

namespace Asteros.Foundation.Json

open Asteros.Libc Asteros.CoreFoundation Asteros.Foundation.Json.Tree

variable {δ : Type} (lib : Library δ)

/-! ## Every outcome comes from a value -/

/-- An outcome of the reader comes from a value at its cursor: what it returns is the value of a
readable tree, and its faults are those of an unfinished one. -/
def Reads (s : List UInt8) : Except Fault (Parsed δ) → Prop
  | .ok none => True
  | .ok (some (v, c)) =>
    ∃ t r, Follows readable t ∧ s = t.bytes ++ r ∧ v = t.value lib ∧ c = terminated r
  | .error e => e = .outOfBounds ∧ ∃ u : Unfinished, u.WellFormed ∧ s = u.bytes

/-- An outcome of the loop over an array comes from the values at its cursor. -/
def ReadsElements (a : List (CFObject δ)) (s : List UInt8) : Except Fault (Parsed δ) → Prop
  | .ok none => True
  | .ok (some (v, c)) => ∃ done lead last trail r,
      (ElementsFollow readable done ∧ Blank lead ∧ Follows readable last ∧ Blank trail) ∧
      s = elementsBytes done ++ (lead ++ (last.bytes ++ (trail ++ byte ']' :: r))) ∧
      v = .array (a ++ (elementValues lib done ++ [last.value lib])) ∧ c = terminated r
  | .error e => e = .outOfBounds ∧ ∃ done lead u,
      (ElementsFollow readable done ∧ Blank lead ∧ Unfinished.WellFormed u) ∧
      s = elementsBytes done ++ (lead ++ u.bytes)

/-- An outcome of the loop over an object comes from the members at its cursor. -/
def ReadsMembers (d : Entries δ) (s : List UInt8) : Except Fault (Parsed δ) → Prop
  | .ok none => True
  | .ok (some (v, c)) => ∃ done k last trail r,
      (MembersFollow readable done ∧ readable.OfKey k ∧ Follows readable last ∧ Blank trail) ∧
      s = membersBytes done ++ (k.bytes ++ (last.bytes ++ (trail ++ byte '}' :: r))) ∧
      v = .dictionary (cfDictionarySetValue (storeMembers lib d done) (stringValue k.name)
        (last.value lib)) ∧ c = terminated r
  | .error e => e = .outOfBounds ∧ ∃ u : Unfinished, u.WellFormed ∧ u.IsContainer ∧
      byte '{' :: s = u.bytes

/-- One value of an array comes before the others. -/
lemma ReadsElements.cons {lead trail : List UInt8} {t : Tree} (hlead : Blank lead)
    (ht : Follows readable t) (htrail : Blank trail) {a : List (CFObject δ)} {s : List UInt8}
    {res : Except Fault (Parsed δ)} (h : ReadsElements lib (a ++ [t.value lib]) s res) :
    ReadsElements lib a (lead ++ (t.bytes ++ (trail ++ byte ',' :: s))) res := by
  match res, h with
  | .ok none, _ => exact trivial
  | .ok (some (v, c)), h =>
    obtain ⟨done, lead', last, trail', r, ⟨hd, hlead', hlast, htrail'⟩, rfl, rfl, rfl⟩ := h
    refine ⟨(lead, t, trail) :: done, lead', last, trail', r,
      ⟨⟨⟨hlead, ht, htrail⟩, hd⟩, hlead', hlast, htrail'⟩, ?_, ?_, rfl⟩
    · simp [elementsBytes]
    · simp [elementValues]
  | .error e, h =>
    obtain ⟨rfl, done, lead', u, ⟨hd, hlead', hu⟩, rfl⟩ := h
    refine ⟨rfl, (lead, t, trail) :: done, lead', u,
      ⟨⟨⟨hlead, ht, htrail⟩, hd⟩, hlead', hu⟩, ?_⟩
    simp [elementsBytes]

/-- A member put in front of the members of an unfinished object. -/
def Unfinished.consMember (slot : Key × Tree × List UInt8) : Unfinished → Unfinished
  | .key done lead items cut => .key (slot :: done) lead items cut
  | .member done k next => .member (slot :: done) k next
  | u => u

/-- One member of an object comes before the others. -/
lemma ReadsMembers.cons {k : Key} {trail : List UInt8} {t : Tree} (hk : readable.OfKey k)
    (ht : Follows readable t) (htrail : Blank trail) {d : Entries δ} {s : List UInt8}
    {res : Except Fault (Parsed δ)}
    (h : ReadsMembers lib (cfDictionarySetValue d (stringValue k.name) (t.value lib)) s res) :
    ReadsMembers lib d (k.bytes ++ (t.bytes ++ (trail ++ byte ',' :: s))) res := by
  match res, h with
  | .ok none, _ => exact trivial
  | .ok (some (v, c)), h =>
    obtain ⟨done, k', last, trail', r, ⟨hd, hk', hlast, htrail'⟩, rfl, rfl, rfl⟩ := h
    refine ⟨(k, t, trail) :: done, k', last, trail', r,
      ⟨⟨⟨hk, ht, htrail⟩, hd⟩, hk', hlast, htrail'⟩, ?_, ?_, rfl⟩
    · simp [membersBytes]
    · simp [storeMembers]
  | .error e, h =>
    obtain ⟨rfl, u, hu, -, hs⟩ := h
    refine ⟨rfl, u.consMember (k, t, trail), ?_⟩
    cases u with
    | string items cut => cases (List.cons.inj hs).1
    | array done lead next => cases (List.cons.inj hs).1
    | key done lead items cut =>
      obtain ⟨hd, hrest⟩ := hu
      have hs := (List.cons.inj hs).2
      refine ⟨⟨⟨⟨hk, ht, htrail⟩, hd⟩, hrest⟩, trivial, ?_⟩
      simp [Unfinished.consMember, Unfinished.bytes, membersBytes, hs]
    | member done k' next =>
      obtain ⟨hd, hrest⟩ := hu
      have hs := (List.cons.inj hs).2
      refine ⟨⟨⟨⟨hk, ht, htrail⟩, hd⟩, hrest⟩, trivial, ?_⟩
      simp [Unfinished.consMember, Unfinished.bytes, membersBytes, hs]

/-- What the parser does with the given fuel comes from values. -/
private def Sound (fuel : ℕ) : Prop :=
  (∀ s, 3 * (s.length + 1) ≤ fuel →
    Reads lib (s.dropWhile isWs) (parseJSONValue lib fuel (terminated s))) ∧
  (∀ a s, 3 * (s.length + 1) + 1 ≤ fuel →
    ReadsElements lib a s (arrayLoop lib fuel a (terminated s))) ∧
  ∀ d s, 3 * (s.length + 1) + 1 ≤ fuel →
    ReadsMembers lib d s (objectLoop lib fuel d (terminated s))

/-- The whitespace at the start of a text. -/
private lemma length_dropWhile_le (s : List UInt8) : (s.dropWhile isWs).length ≤ s.length :=
  (List.dropWhile_sublist _).length_le

/-- The loop over an array. -/
private lemma arrayLoop_sound {fuel : ℕ} (ih : Sound lib fuel) {s : List UInt8}
    (hfuel : 3 * (s.length + 1) ≤ fuel) (a : List (CFObject δ)) :
    ReadsElements lib a s (arrayLoop lib (fuel + 1) a (terminated s)) := by
  obtain ⟨lead, hlead, hs⟩ := exists_blank s
  have hdrop := length_dropWhile_le s
  have hvalue := ih.1 (s.dropWhile isWs) (by omega)
  rw [List.dropWhile_idempotent] at hvalue
  cases hparse : parseJSONValue lib fuel (terminated (s.dropWhile isWs)) with
  | error e =>
    rw [hparse] at hvalue
    obtain ⟨rfl, u, hu, hbytes⟩ := hvalue
    rw [arrayLoop_of_error lib a hparse]
    exact ⟨rfl, [], lead, u, ⟨trivial, hlead, hu⟩, by rw [← hbytes]; exact hs⟩
  | ok res =>
    rw [hparse] at hvalue
    cases res with
    | none =>
      have hnone : arrayLoop lib (fuel + 1) a (terminated s) = .ok none := by
        rw [arrayLoop]
        simp only [skipWS_terminated, ok_bind, hparse]
      rw [hnone]
      exact trivial
    | some res =>
      obtain ⟨v, c⟩ := res
      obtain ⟨t, r, ht, hbytes, rfl, rfl⟩ := hvalue
      obtain ⟨trail, htrail, hr⟩ := exists_blank r
      have hcat : s = lead ++ (t.bytes ++ (trail ++ r.dropWhile isWs)) := by
        rw [← hr, ← hbytes]
        exact hs
      rw [arrayLoop_of_value lib a hparse]
      cases hrest : r.dropWhile isWs with
      | nil => exact trivial
      | cons b r' =>
        rw [hrest] at hcat
        by_cases hcomma : b = byte ','
        · subst hcomma
          have hlen : r'.length + 2 ≤ s.length := by
            obtain ⟨b, s', hb, -⟩ := starts_tree readable_number ht
            rw [hcat, hb]
            simp only [List.length_append, List.length_cons]
            omega
          rw [hcat]
          exact ReadsElements.cons lib hlead ht htrail (ih.2.1 _ r' (by omega))
        · by_cases hclose : b = byte ']'
          · subst hclose
            exact ⟨[], lead, t, trail, r', ⟨trivial, hlead, ht, htrail⟩, hcat, rfl, rfl⟩
          · simp only [hcomma, hclose, if_false]
            exact trivial

/-- The loop over an object. -/
private lemma objectLoop_sound {fuel : ℕ} (ih : Sound lib fuel) {s : List UInt8}
    (hfuel : 3 * (s.length + 1) ≤ fuel) (d : Entries δ) :
    ReadsMembers lib d s (objectLoop lib (fuel + 1) d (terminated s)) := by
  obtain ⟨lead, hlead, hs⟩ := exists_blank s
  rcases parseJSONString_cases (s.dropWhile isWs) with hkey | ⟨items, r, hi, hbytes, hkey⟩ |
    ⟨items, cut, hi, hcut, hbytes, hkey⟩
  · have hnone : objectLoop lib (fuel + 1) d (terminated s) = .ok none := by
      rw [objectLoop]
      simp only [skipWS_terminated, ok_bind, hkey]
    rw [hnone]
    exact trivial
  · obtain ⟨before, hbefore, hr⟩ := exists_blank r
    by_cases hcolon : (r.dropWhile isWs).head? = some (byte ':')
    · cases hrest : r.dropWhile isWs with
      | nil =>
        rw [hrest] at hcolon
        cases hcolon
      | cons b r' =>
        rw [hrest] at hcolon
        obtain rfl := Option.some.inj hcolon
        obtain ⟨after, hafter, hr'⟩ := exists_blank r'
        have hk : readable.OfKey ⟨lead, items, before, after⟩ := ⟨hlead, hi, hbefore, hafter⟩
        have hcat : s = (Key.mk lead items before after).bytes ++ r'.dropWhile isWs := by
          simp only [Key.bytes, List.append_assoc, List.cons_append]
          rw [← hr', ← hrest, ← hr, ← hbytes]
          exact hs
        have hlen : (r'.dropWhile isWs).length + 3 ≤ s.length := by
          rw [hcat]
          simp only [Key.bytes, stringBytes, List.length_append, List.length_cons, List.length_nil]
          omega
        have hvalue := ih.1 (r'.dropWhile isWs) (by omega)
        rw [List.dropWhile_idempotent] at hvalue
        cases hparse : parseJSONValue lib fuel (terminated (r'.dropWhile isWs)) with
        | error e =>
          rw [hparse] at hvalue
          obtain ⟨rfl, u, hu, hu'⟩ := hvalue
          rw [objectLoop_of_error lib d hkey hrest hparse]
          refine ⟨rfl, .member [] ⟨lead, items, before, after⟩ u, ⟨trivial, hk, hu⟩, trivial, ?_⟩
          rw [hcat, hu']
          rfl
        | ok res =>
          rw [hparse] at hvalue
          cases res with
          | none =>
            rw [objectLoop_of_key lib d hkey, hrest]
            simp only [if_true, hparse, ok_bind]
            exact trivial
          | some res =>
            obtain ⟨v, c⟩ := res
            obtain ⟨t, r'', ht, ht', rfl, rfl⟩ := hvalue
            obtain ⟨trail, htrail, hr''⟩ := exists_blank r''
            rw [ht'] at hcat hlen
            rw [List.length_append] at hlen
            rw [objectLoop_of_value lib d hkey hrest hparse]
            cases hlast : r''.dropWhile isWs with
            | nil => exact trivial
            | cons b rest =>
              rw [hlast] at hr''
              by_cases hcomma : b = byte ','
              · subst hcomma
                have hlen' : rest.length ≤ r''.length := by
                  rw [hr'', List.length_append, List.length_cons]
                  omega
                rw [hcat, hr'']
                exact ReadsMembers.cons lib hk ht htrail (ih.2.2 _ rest (by omega))
              · by_cases hclose : b = byte '}'
                · subst hclose
                  refine ⟨[], ⟨lead, items, before, after⟩, t, trail, rest,
                    ⟨trivial, hk, ht, htrail⟩, ?_, rfl, rfl⟩
                  rw [hcat, hr'']
                  rfl
                · simp only [hcomma, hclose, if_false]
                  exact trivial
    · have hnone : objectLoop lib (fuel + 1) d (terminated s) = .ok none := by
        rw [objectLoop_of_key lib d hkey]
        cases hrest : r.dropWhile isWs with
        | nil => rfl
        | cons b r' =>
          rw [hrest] at hcolon
          have hb : b ≠ byte ':' := fun h => hcolon (by rw [h]; rfl)
          simp only [hb, if_false]
      rw [hnone]
      exact trivial
  · rw [objectLoop_of_keyError lib d hkey]
    refine ⟨rfl, .key [] lead items cut, ⟨trivial, hlead, hi, hcut⟩, trivial, ?_⟩
    simp only [Unfinished.bytes, membersBytes, List.nil_append]
    rw [← hbytes, ← hs]

/-- A literal at the cursor. -/
private lemma parseLiteral_sound {t : Tree} (ht : Follows readable t) (h0 : 0 ∉ t.bytes)
    (s : List UInt8) : Reads lib s (parseLiteral (terminated s) t.bytes (t.value lib)) := by
  rw [parseLiteral_terminated h0]
  by_cases hlit : t.bytes.isPrefixOf s = true
  · obtain ⟨r, rfl⟩ := List.isPrefixOf_iff_prefix.mp hlit
    rw [if_pos hlit, List.drop_left]
    exact ⟨t, r, ht, rfl, rfl, rfl⟩
  · rw [if_neg hlit]
    exact trivial

/-- A value at the cursor, given what the loops do with less fuel. -/
private lemma parseJSONValue_sound {fuel : ℕ} (ih : Sound lib fuel) {b : UInt8} {s : List UInt8}
    (hb : isWs b = false) (hfuel : 3 * (s.length + 1) + 1 ≤ fuel) :
    Reads lib (b :: s) (parseJSONValue lib (fuel + 2) (terminated (b :: s))) := by
  obtain ⟨blank, hblank, hs⟩ := exists_blank s
  rw [parseJSONValue_cons lib hb]
  by_cases hobject : b = byte '{'
  · subst hobject
    rw [if_pos rfl, parseJSONObject_cons]
    by_cases hclose : (s.dropWhile isWs).head? = some (byte '}')
    · cases hrest : s.dropWhile isWs with
      | nil =>
        rw [hrest] at hclose
        cases hclose
      | cons b r =>
        rw [hrest] at hclose hs
        obtain rfl := Option.some.inj hclose
        rw [if_pos hclose]
        exact ⟨.emptyObject blank, r, hblank, by rw [hs]; simp [Tree.bytes], rfl, rfl⟩
    · rw [if_neg hclose]
      have hmembers := ih.2.2 [] s hfuel
      cases hloop : objectLoop lib fuel [] (terminated s) with
      | error e =>
        rw [hloop] at hmembers
        obtain ⟨rfl, u, hu, -, hbytes⟩ := hmembers
        exact ⟨rfl, u, hu, hbytes⟩
      | ok res =>
        rw [hloop] at hmembers
        cases res with
        | none => exact trivial
        | some res =>
          obtain ⟨v, c⟩ := res
          obtain ⟨done, k, last, trail, r, hfollow, hbytes, rfl, rfl⟩ := hmembers
          exact ⟨.object done k last trail, r, hfollow, by rw [hbytes]; simp [Tree.bytes], rfl, rfl⟩
  rw [if_neg hobject]
  by_cases harray : b = byte '['
  · subst harray
    rw [if_pos rfl, parseJSONArray_cons]
    by_cases hclose : (s.dropWhile isWs).head? = some (byte ']')
    · cases hrest : s.dropWhile isWs with
      | nil =>
        rw [hrest] at hclose
        cases hclose
      | cons b r =>
        rw [hrest] at hclose hs
        obtain rfl := Option.some.inj hclose
        rw [if_pos hclose]
        exact ⟨.emptyArray blank, r, hblank, by rw [hs]; simp [Tree.bytes], rfl, rfl⟩
    · rw [if_neg hclose]
      have helements := ih.2.1 [] s hfuel
      cases hloop : arrayLoop lib fuel [] (terminated s) with
      | error e =>
        rw [hloop] at helements
        obtain ⟨rfl, done, lead, u, hfollow, hbytes⟩ := helements
        exact ⟨rfl, .array done lead u, hfollow, by rw [hbytes]; rfl⟩
      | ok res =>
        rw [hloop] at helements
        cases res with
        | none => exact trivial
        | some res =>
          obtain ⟨v, c⟩ := res
          obtain ⟨done, lead, last, trail, r, hfollow, hbytes, rfl, rfl⟩ := helements
          exact ⟨.array done lead last trail, r, hfollow, by rw [hbytes]; simp [Tree.bytes], rfl,
            rfl⟩
  rw [if_neg harray]
  by_cases hquote : b = byte '"'
  · rw [if_pos hquote]
    rcases parseJSONString_cases (b :: s) with hparse | ⟨items, r, hi, hbytes, hparse⟩ |
      ⟨items, cut, hi, hcut, hbytes, hparse⟩
    · rw [hparse]
      exact trivial
    · rw [hparse]
      exact ⟨.string items, r, hi, hbytes, rfl, rfl⟩
    · rw [hparse]
      exact ⟨rfl, .string items cut, ⟨hi, hcut⟩, hbytes⟩
  rw [if_neg hquote]
  split_ifs with htrue hfalse hnull hnumber
  · exact parseLiteral_sound lib (t := .boolean true) trivial (by decide) _
  · exact parseLiteral_sound lib (t := .boolean false) trivial (by decide) _
  · exact parseLiteral_sound lib (t := .null) trivial (by decide) _
  · rw [parseJSONNumber_eq]
    by_cases hshort : (numberAt (b :: s)).1.bytes.length < 64
    · rw [if_pos hshort]
      exact ⟨.number (numberAt (b :: s)).1, (numberAt (b :: s)).2,
        ⟨numberAt_wellFormed hnumber s, hshort⟩, (numberAt_bytes (b :: s)).symm, rfl, rfl⟩
    · rw [if_neg hshort]
      exact trivial
  · exact trivial

/-- Every outcome comes from a value, whatever the fuel. -/
private lemma sound (fuel : ℕ) : Sound lib fuel := by
  induction fuel using Nat.strong_induction_on with
  | h fuel ih =>
    refine ⟨fun s hfuel => ?_, fun a s hfuel => ?_, fun d s hfuel => ?_⟩
    · obtain ⟨fuel, rfl⟩ : ∃ k, fuel = k + 2 := ⟨fuel - 2, by omega⟩
      have hskip : parseJSONValue lib (fuel + 2) (terminated s) =
          parseJSONValue lib (fuel + 2) (terminated (s.dropWhile isWs)) := by
        simp only [parseJSONValue, skipWS_terminated, List.dropWhile_idempotent]
      have hlen := length_dropWhile_le s
      rw [hskip]
      cases hrest : s.dropWhile isWs with
      | nil =>
        have hnone : parseJSONValue lib (fuel + 2) (terminated []) = .ok none := rfl
        rw [hnone]
        exact trivial
      | cons b r =>
        rw [hrest, List.length_cons] at hlen
        have hb : isWs b = false := by
          have h := List.head?_dropWhile_not isWs s
          rw [hrest] at h
          simpa using h
        exact parseJSONValue_sound lib (ih fuel (by omega)) hb (by omega)
    · obtain ⟨fuel, rfl⟩ : ∃ k, fuel = k + 1 := ⟨fuel - 1, by omega⟩
      exact arrayLoop_sound lib (ih fuel (by omega)) (by omega) a
    · obtain ⟨fuel, rfl⟩ : ∃ k, fuel = k + 1 := ⟨fuel - 1, by omega⟩
      exact objectLoop_sound lib (ih fuel (by omega)) (by omega) d

/-- **Every outcome of the parser comes from a value at its cursor.**

**Proof sketch.** Strong induction on the fuel. What a container is read as is put together from
what the loops read; numbers and strings are those at the cursor. -/
theorem parse_sound {s : List UInt8} {fuel : ℕ} (hfuel : 3 * (s.length + 1) ≤ fuel) :
    Reads lib (s.dropWhile isWs) (parseJSONValue lib fuel (terminated s)) :=
  (sound lib fuel).1 s hfuel

end Asteros.Foundation.Json
