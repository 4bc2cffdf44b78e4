import Asteros.Foundation.Json.Soundness

set_option autoImplicit false

/-!
# Where the JSON reader leaves its buffer

The reader relies on the NUL after the data. An escape moves the cursor once or five times without
looking for that NUL, so data that ends in the middle of an escape sends the cursor beyond it;
nothing else does.

## Main definitions

* `EndsInEscape` — data that ends in the middle of an escape.

## Main results

* `staysInside_iff` — which data it reads without leaving the buffer.
-/

namespace Asteros.Foundation.Json

open Asteros.Libc Asteros.CoreFoundation Asteros.Foundation.Json.Tree

variable {δ : Type} (lib : Library δ)

/-- The data ends in the middle of an escape: it is whitespace and an object or array that has
been read up to there, a string inside it being the last thing in it. -/
def EndsInEscape (data : List UInt8) : Prop :=
  ∃ (lead : List UInt8) (u : Unfinished), Blank lead ∧ u.WellFormed ∧ u.IsContainer ∧
    data = lead ++ u.bytes

/-- The whole run on the data: no read or write outside an array, the cursor at or before the
terminator after every step, and an end. -/
def StaysInside (data : List UInt8) : Prop := ∃ result, jsonObjectWithData lib data = .ok result

/-- What the reader does after the whitespace at the start of the data. -/
lemma jsonObjectWithData_cons {data s : List UInt8} {b : UInt8}
    (h : data.dropWhile isWs = b :: s) : jsonObjectWithData lib data =
      if b = byte '{' ∨ b = byte '[' then do
        let result ← parseJSONValue lib (3 * (s.length + 2)) (terminated (b :: s))
        .ok (result.map Prod.fst)
      else .ok none := by
  have hlen : (terminated (b :: s)).length = s.length + 2 := by simp [terminated]
  rw [jsonObjectWithData, skipWS_terminated, h, ok_bind, deref_terminated_cons, ok_bind, hlen]

/-- Data of whitespace alone is read as nothing. -/
lemma jsonObjectWithData_nil {data : List UInt8} (h : data.dropWhile isWs = []) :
    jsonObjectWithData lib data = .ok none := by
  rw [jsonObjectWithData, skipWS_terminated, h, ok_bind, deref_terminated_nil, ok_bind,
    if_neg (by decide)]

/-- **A readable container is read**, with whitespace before it and anything behind. -/
lemma jsonObjectWithData_tree {lead : List UInt8} (hlead : Blank lead) {t : Tree}
    (ht : Follows readable t) (hcontainer : t.IsContainer) (rest : List UInt8) :
    jsonObjectWithData lib (lead ++ (t.bytes ++ rest)) = .ok (some (t.value lib)) := by
  have hdrop := (starts_tree readable_number ht).dropWhile hlead rest
  obtain ⟨b, s, hbytes, hb⟩ : ∃ b s, t.bytes = b :: s ∧ (b = byte '{' ∨ b = byte '[') := by
    cases t with
    | emptyArray blank => exact ⟨_, _, rfl, Or.inr rfl⟩
    | array done lead last trail => exact ⟨_, _, rfl, Or.inr rfl⟩
    | emptyObject blank => exact ⟨_, _, rfl, Or.inl rfl⟩
    | object done k last trail => exact ⟨_, _, rfl, Or.inl rfl⟩
    | _ => exact hcontainer.elim
  have hparse := parse_tree lib ht rest (3 * ((s ++ rest).length + 2)) (Or.inl hcontainer) (by
    rw [hbytes, List.length_cons, List.length_append]
    omega)
  have hcat : t.bytes ++ rest = b :: (s ++ rest) := by
    rw [hbytes, List.cons_append]
  rw [hcat] at hparse
  rw [jsonObjectWithData_cons lib (hdrop.trans hcat), if_pos hb, hparse]
  rfl

/-- What the reader returns for data comes from a container in it. -/
lemma jsonObjectWithData_reads {data s : List UInt8} {b : UInt8}
    (h : data.dropWhile isWs = b :: s) :
    Reads lib (b :: s) (parseJSONValue lib (3 * (s.length + 2)) (terminated (b :: s))) := by
  have hdrop : (b :: s).dropWhile isWs = b :: s := by
    rw [← h, List.dropWhile_idempotent]
  have hsound := parse_sound lib (show 3 * ((b :: s).length + 1) ≤ 3 * (s.length + 2) by
    rw [List.length_cons])
  rwa [hdrop] at hsound

/-- Data that ends in the middle of an escape is read beyond its end. -/
lemma jsonObjectWithData_of_endsInEscape {data : List UInt8} (h : EndsInEscape data) :
    jsonObjectWithData lib data = .error .outOfBounds := by
  obtain ⟨lead, u, hlead, hu, hcontainer, rfl⟩ := h
  have hdrop := (starts_unfinished u).dropWhile hlead []
  rw [List.append_nil] at hdrop
  obtain ⟨b, s, hbytes, hb⟩ : ∃ b s, u.bytes = b :: s ∧ (b = byte '{' ∨ b = byte '[') := by
    cases u with
    | string items cut => exact hcontainer.elim
    | array done lead next => exact ⟨_, _, rfl, Or.inr rfl⟩
    | key done lead items cut => exact ⟨_, _, rfl, Or.inl rfl⟩
    | member done k next => exact ⟨_, _, rfl, Or.inl rfl⟩
  have hparse := parse_unfinished lib hu (show 3 * u.bytes.length ≤ 3 * (s.length + 2) by
    rw [hbytes, List.length_cons]
    omega)
  rw [hbytes] at hparse
  rw [jsonObjectWithData_cons lib (hdrop.trans hbytes), if_pos hb, hparse]
  rfl

/-- Other data is read without leaving the buffer. -/
lemma exists_result_of_not_endsInEscape {data : List UInt8} (hnot : ¬EndsInEscape data) :
    ∃ result, jsonObjectWithData lib data = .ok result := by
  cases h : data.dropWhile isWs with
  | nil => exact ⟨none, jsonObjectWithData_nil lib h⟩
  | cons b s =>
    have hreads := jsonObjectWithData_reads lib h
    rw [jsonObjectWithData_cons lib h]
    split_ifs with hb
    · cases hparse : parseJSONValue lib (3 * (s.length + 2)) (terminated (b :: s)) with
      | error e =>
        rw [hparse] at hreads
        obtain ⟨-, u, hu, hbytes⟩ := hreads
        obtain ⟨lead, hlead, hdata⟩ := exists_blank data
        have hcontainer : u.IsContainer := by
          cases u with
          | string items cut =>
            obtain ⟨rfl, -⟩ := List.cons.inj hbytes
            exact absurd hb (by decide)
          | _ => exact trivial
        rw [h, hbytes] at hdata
        exact absurd ⟨lead, u, hlead, hu, hcontainer, hdata⟩ hnot
      | ok result => exact ⟨_, rfl⟩
    · exact ⟨none, rfl⟩

/-- **The reader stays inside its buffer exactly on data that does not end in the middle of an
escape.**

**Proof sketch.** A fault is that of an unfinished value (`parse_sound`), which is a container
because the reader only looks at containers; and the text of an unfinished value has that fault
(`parse_unfinished`). -/
theorem staysInside_iff (data : List UInt8) : StaysInside lib data ↔ ¬EndsInEscape data := by
  refine ⟨?_, exists_result_of_not_endsInEscape lib⟩
  rintro ⟨result, hresult⟩ hescape
  rw [jsonObjectWithData_of_endsInEscape lib hescape] at hresult
  cases hresult

/-- **A backslash at the end of the data sends the cursor beyond the terminator.** -/
theorem not_staysInside_backslash : ¬StaysInside noReals (ascii "[\"\\") := by
  rintro ⟨result, hresult⟩
  have herror : jsonObjectWithData noReals (ascii "[\"\\") = .error .outOfBounds := by rfl
  rw [herror] at hresult
  cases hresult

end Asteros.Foundation.Json
