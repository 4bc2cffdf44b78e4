import Asteros.Foundation.Json.Syntax
import Asteros.CoreFoundation.PropertyListGrammar

set_option autoImplicit false

/-!
# Reading JSON strings and numbers

What the reader makes of a string or a number at its cursor, for every text. The terminator stops
every loop over whitespace or digits, so on a terminated text the scanner has no faults; the only
places where it steps over a character without having looked at it are the escapes of a string.

## Main definitions

* `numberAt` — the number at the start of a text.
* `BodyEnd` — where the loop over a string stops.

## Main results

* `parseJSONNumber_eq` — what is read for a number.
* `parseJSONString_cases` — what is read for a string.
* `body_unique` — a text is read as one list of characters only.
-/

namespace Asteros.Foundation.Json

open Asteros.Libc Asteros.CoreFoundation

variable {δ : Type}

/-! ## The cursor on a terminated text -/

/-- A read at the cursor. -/
@[simp] lemma deref_terminated_cons (b : UInt8) (s : List UInt8) :
    deref (terminated (b :: s)) 0 = .ok b := rfl

/-- A read at the terminator. -/
@[simp] lemma deref_terminated_nil : deref (terminated []) 0 = .ok 0 := rfl

/-- A step over a character. -/
@[simp] lemma step_terminated_cons (b : UInt8) (s : List UInt8) :
    step (terminated (b :: s)) 1 = .ok (terminated s) := by
  simp [step, terminated]

/-- A step over the terminator. -/
@[simp] lemma step_terminated_nil : step (terminated []) 1 = .error .outOfBounds := rfl

/-- A step over several characters. -/
lemma step_terminated_append (p s : List UInt8) :
    step (terminated (p ++ s)) p.length = .ok (terminated s) := by
  simp [step, terminated]

/-- A loop that the terminator stops. -/
lemma scan_terminated {test : UInt8 → Bool} (h0 : test 0 = false) (s : List UInt8) :
    scan test (terminated s) = .ok (terminated (s.dropWhile test)) := by
  have hdrop : (terminated s).dropWhile test = terminated (s.dropWhile test) := by
    induction s with
    | nil => simp [terminated, h0]
    | cons b s ih =>
      rw [terminated] at ih ⊢
      by_cases hb : test b
      · simp only [List.cons_append, List.dropWhile_cons, hb, if_true, ih]
      · simp only [List.cons_append, List.dropWhile_cons, hb, Bool.false_eq_true, if_false]
        rfl
  rw [scan, hdrop]
  cases s.dropWhile test <;> rfl

/-- `skipWS` skips the leading whitespace. -/
@[simp] lemma skipWS_terminated (s : List UInt8) :
    skipWS (terminated s) = .ok (terminated (s.dropWhile isWs)) := scan_terminated (by decide) s

/-- A run of digits is skipped. -/
@[simp] lemma scan_isdigit_terminated (s : List UInt8) :
    scan isdigit (terminated s) = .ok (terminated (s.dropWhile isdigit)) :=
  scan_terminated (by decide) s

/-- Whether a text starts with a character that passes a test, and what follows this character
if it does. -/
def skipOne (test : UInt8 → Bool) : List UInt8 → Bool × List UInt8
  | [] => (false, [])
  | b :: s => if test b then (true, s) else (false, b :: s)

/-- A test at the cursor, with a step. -/
lemma skipIf_terminated {test : UInt8 → Bool} (h0 : test 0 = false) (s : List UInt8) :
    skipIf test (terminated s) = .ok ((skipOne test s).1, terminated (skipOne test s).2) := by
  cases s with
  | nil => simp [skipIf, skipOne, h0]
  | cons b s =>
    by_cases hb : test b
    · simp [skipIf, skipOne, hb]
    · simp [skipIf, skipOne, hb]

/-- A comparison at the cursor, with a step. -/
lemma skipIf_char {ch : UInt8} (h0 : ch ≠ 0) (s : List UInt8) :
    skipIf (· == ch) (terminated s) =
      .ok ((skipOne (· == ch) s).1, terminated (skipOne (· == ch) s).2) :=
  skipIf_terminated (by simpa using h0.symm) s

/-- A literal is recognised where it is. -/
lemma strncmp_terminated {lit : List UInt8} (h0 : 0 ∉ lit) (s : List UInt8) :
    strncmp (terminated s) lit = .ok (lit.isPrefixOf s) := by
  induction lit generalizing s with
  | nil => cases s <;> rfl
  | cons l lit ih =>
    rw [List.mem_cons, not_or] at h0
    cases s with
    | nil => simp [terminated, strncmp, h0.1]
    | cons b s =>
      have hcons : terminated (b :: s) = b :: terminated s := rfl
      rw [hcons, strncmp, List.isPrefixOf_cons_cons]
      by_cases hb : b = l
      · simp [hb, ih h0.2]
      · simp [hb, Ne.symm hb]

/-! ## Numbers -/

/-- The fraction at the start of a text, and what follows it. -/
def fractionAt (s : List UInt8) : Option (List UInt8) × List UInt8 :=
  match s with
  | [] => (none, [])
  | b :: s => if b = byte '.' then (some (s.takeWhile isdigit), s.dropWhile isdigit)
    else (none, b :: s)

/-- The sign at the start of a text, and what follows it. -/
def signAt (s : List UInt8) : List UInt8 × List UInt8 :=
  match s with
  | [] => ([], [])
  | b :: s => if b = byte '+' ∨ b = byte '-' then ([b], s) else ([], b :: s)

/-- The exponent at the start of a text, and what follows it. -/
def exponentAt (s : List UInt8) : Option Exponent × List UInt8 :=
  match s with
  | [] => (none, [])
  | b :: s =>
    if b = byte 'e' ∨ b = byte 'E' then
      (some ⟨b, (signAt s).1, (signAt s).2.takeWhile isdigit⟩, (signAt s).2.dropWhile isdigit)
    else (none, b :: s)

/-- The number at the start of a text, and what follows it. -/
def numberAt (s : List UInt8) : Number × List UInt8 :=
  let s₁ := (skipOne (· == byte '-') s).2
  let s₂ := s₁.dropWhile isdigit
  let s₃ := (fractionAt s₂).2
  (⟨(skipOne (· == byte '-') s).1, s₁.takeWhile isdigit, (fractionAt s₂).1, (exponentAt s₃).1⟩,
    (exponentAt s₃).2)

/-- The fraction and what follows it are the text. -/
lemma fractionAt_bytes (s : List UInt8) :
    Number.fracBytes (fractionAt s).1 ++ (fractionAt s).2 = s := by
  cases s with
  | nil => rfl
  | cons b s =>
    by_cases hb : b = byte '.'
    · simp [fractionAt, Number.fracBytes, hb]
    · simp [fractionAt, Number.fracBytes, hb]

/-- The sign and what follows it are the text. -/
lemma signAt_bytes (s : List UInt8) : (signAt s).1 ++ (signAt s).2 = s := by
  cases s with
  | nil => rfl
  | cons b s =>
    by_cases hb : b = byte '+' ∨ b = byte '-'
    · simp [signAt, hb]
    · simp [signAt, hb]

/-- The exponent and what follows it are the text. -/
lemma exponentAt_bytes (s : List UInt8) :
    Number.expBytes (exponentAt s).1 ++ (exponentAt s).2 = s := by
  cases s with
  | nil => rfl
  | cons b s =>
    by_cases hb : b = byte 'e' ∨ b = byte 'E'
    · simp [exponentAt, Number.expBytes, hb, signAt_bytes]
    · simp [exponentAt, Number.expBytes, hb]

/-- The number and what follows it are the text. -/
lemma numberAt_bytes (s : List UInt8) : (numberAt s).1.bytes ++ (numberAt s).2 = s := by
  have hminus : (if (skipOne (· == byte '-') s).1 then [byte '-'] else []) ++
      (skipOne (· == byte '-') s).2 = s := by
    cases s with
    | nil => rfl
    | cons b s =>
      by_cases hb : b = byte '-'
      · simp [skipOne, hb]
      · simp [skipOne, hb]
  simp only [numberAt, Number.bytes, List.append_assoc, exponentAt_bytes, fractionAt_bytes,
    List.takeWhile_append_dropWhile]
  exact hminus

/-- The digits at the start of a text. -/
private lemma digits_takeWhile (s : List UInt8) : Number.Digits (s.takeWhile isdigit) :=
  fun _ h => List.mem_takeWhile_imp h

/-- A text that starts like a number has a number at its start. -/
lemma numberAt_wellFormed {b : UInt8} (hb : b = byte '-' ∨ isdigit b = true) (s : List UInt8) :
    (numberAt (b :: s)).1.WellFormed := by
  refine ⟨digits_takeWhile _, ?_, fun digits h => ?_, fun e h => ?_⟩
  · by_cases hminus : b = byte '-'
    · exact Or.inl (by simp [numberAt, skipOne, hminus])
    · have hdigit := hb.resolve_left hminus
      exact Or.inr (by simp [numberAt, skipOne, hminus, hdigit])
  · simp only [numberAt, Option.mem_def] at h
    unfold fractionAt at h
    split at h
    · cases h
    · split_ifs at h
      obtain rfl := Option.some.inj h
      exact digits_takeWhile _
  · simp only [numberAt, Option.mem_def] at h
    unfold exponentAt at h
    split at h
    · cases h
    · split_ifs at h with hmark
      obtain rfl := Option.some.inj h
      refine ⟨?_, ?_, digits_takeWhile _⟩
      · simpa [ascii] using hmark
      · unfold signAt
        split
        · exact List.mem_cons_self
        · split_ifs with hsign
          · simpa [ascii] using hsign
          · exact List.mem_cons_self

/-- The text cannot continue a number. -/
def Stops (r : List UInt8) : Prop := ∀ b ∈ r.head?, isdigit b = false ∧ b ∉ ascii ".eE+-"

/-- An exponent is read as it is written. -/
private lemma exponentAt_expBytes {exp : Option Exponent}
    (h : ∀ e ∈ exp, e.mark ∈ ascii "eE" ∧ e.sign ∈ [[], ascii "+", ascii "-"] ∧
      Number.Digits e.digits) {r : List UInt8} (hr : Stops r) :
    exponentAt (Number.expBytes exp ++ r) = (exp, r) := by
  cases exp with
  | none =>
    cases r with
    | nil => rfl
    | cons b r =>
      obtain ⟨-, hb⟩ := hr b rfl
      have hmark : ¬(b = byte 'e' ∨ b = byte 'E') := by
        rintro (rfl | rfl)
        · exact hb (by decide)
        · exact hb (by decide)
      simp [Number.expBytes, exponentAt, hmark]
  | some e =>
    obtain ⟨hmark, hsign, hdigits⟩ := h e rfl
    have hm : e.mark = byte 'e' ∨ e.mark = byte 'E' := by
      simpa [ascii] using hmark
    have hrun := takeWhile_run hdigits (c := r) fun b hb => (hr b hb).1
    have hat : signAt (e.sign ++ (e.digits ++ r)) = (e.sign, e.digits ++ r) := by
      simp only [List.mem_cons, List.not_mem_nil, or_false] at hsign
      rcases hsign with h | h | h
      · rw [h, List.nil_append]
        have hhead : ∀ b ∈ (e.digits ++ r).head?, ¬(b = byte '+' ∨ b = byte '-') := by
          intro b hb hsign
          cases hd : e.digits with
          | nil =>
            rw [hd, List.nil_append] at hb
            have hstop := (hr b hb).2
            rcases hsign with rfl | rfl
            · exact hstop (by decide)
            · exact hstop (by decide)
          | cons d digits =>
            rw [hd] at hb
            obtain rfl := Option.some.inj hb
            have hdigit := hdigits d (hd ▸ List.mem_cons_self)
            rcases hsign with rfl | rfl
            · exact absurd hdigit (by decide)
            · exact absurd hdigit (by decide)
        cases htail : e.digits ++ r with
        | nil => rfl
        | cons b s =>
          rw [htail] at hhead
          simp [signAt, hhead b rfl]
      · rw [h]
        rfl
      · rw [h]
        rfl
    simp only [Number.expBytes, List.cons_append, List.append_assoc, exponentAt, hm, if_true, hat,
      hrun]

/-- A fraction is read as it is written. -/
private lemma fractionAt_fracBytes {frac : Option (List UInt8)}
    (h : ∀ digits ∈ frac, Number.Digits digits) {c : List UInt8}
    (hc : ∀ b ∈ c.head?, isdigit b = false ∧ b ≠ byte '.') :
    fractionAt (Number.fracBytes frac ++ c) = (frac, c) := by
  cases frac with
  | none =>
    cases c with
    | nil => rfl
    | cons b c => simp [Number.fracBytes, fractionAt, (hc b rfl).2]
  | some digits =>
    have hrun := takeWhile_run (h digits rfl) (c := c) fun b hb => (hc b hb).1
    simp [Number.fracBytes, fractionAt, hrun]

/-- What follows the fraction of a number does not continue it. -/
private lemma expBytes_head {exp : Option Exponent} (h : ∀ e ∈ exp, e.mark ∈ ascii "eE")
    {r : List UInt8} (hr : Stops r) :
    ∀ b ∈ (Number.expBytes exp ++ r).head?, isdigit b = false ∧ b ≠ byte '.' := by
  intro b hb
  cases exp with
  | none =>
    obtain ⟨hdigit, hstop⟩ := hr b hb
    exact ⟨hdigit, fun heq => hstop (heq ▸ by decide)⟩
  | some e =>
    obtain rfl := Option.some.inj hb
    have hm : e.mark = byte 'e' ∨ e.mark = byte 'E' := by
      simpa [ascii] using h e rfl
    rcases hm with hm | hm
    · rw [hm]
      decide
    · rw [hm]
      decide

/-- **A number is read as it is written**, if what follows cannot continue it. -/
lemma numberAt_append {n : Number} (hn : n.WellFormed) {r : List UInt8} (hr : Stops r) :
    numberAt (n.bytes ++ r) = (n, r) := by
  obtain ⟨minus, int, frac, exp⟩ := n
  obtain ⟨hint, hstart, hfrac, hexp⟩ := hn
  dsimp only at hint hstart hfrac hexp
  have hcat : (Number.mk minus int frac exp).bytes ++ r = (if minus then [byte '-'] else []) ++
      (int ++ (Number.fracBytes frac ++ (Number.expBytes exp ++ r))) := by
    simp [Number.bytes]
  have hexpHead := expBytes_head (fun e he => (hexp e he).1) hr
  have hfracHead : ∀ b ∈ (Number.fracBytes frac ++ (Number.expBytes exp ++ r)).head?,
      isdigit b = false := by
    intro b hb
    cases frac with
    | none => exact (hexpHead b hb).1
    | some digits =>
      obtain rfl := Option.some.inj hb
      decide
  have hrun := takeWhile_run hint hfracHead
  have hminus : skipOne (· == byte '-') ((if minus then [byte '-'] else []) ++
      (int ++ (Number.fracBytes frac ++ (Number.expBytes exp ++ r)))) =
        (minus, int ++ (Number.fracBytes frac ++ (Number.expBytes exp ++ r))) := by
    cases minus with
    | true => rfl
    | false =>
      obtain ⟨d, digits, rfl⟩ := List.exists_cons_of_ne_nil (hstart.resolve_left (by simp))
      have hd : d ≠ byte '-' := by
        rintro rfl
        exact absurd (hint _ List.mem_cons_self) (by decide)
      simp [skipOne, hd]
  simp only [numberAt, hcat, hminus, hrun, fractionAt_fracBytes hfrac hexpHead,
    exponentAt_expBytes hexp hr]

/-- The fraction is skipped. -/
private lemma skipFraction_terminated (s : List UInt8) :
    skipFraction (terminated s) = .ok ((fractionAt s).1.isSome, terminated (fractionAt s).2) := by
  rw [skipFraction, skipIf_terminated (by decide), ok_bind]
  cases s with
  | nil => rfl
  | cons b s =>
    by_cases hb : b = byte '.'
    · simp [skipOne, fractionAt, hb]
    · simp [skipOne, fractionAt, hb]

/-- The exponent is skipped. -/
private lemma skipExponent_terminated (s : List UInt8) :
    skipExponent (terminated s) = .ok ((exponentAt s).1.isSome, terminated (exponentAt s).2) := by
  rw [skipExponent, skipIf_terminated (by decide), ok_bind]
  cases s with
  | nil => rfl
  | cons b s =>
    by_cases hb : b = byte 'e' ∨ b = byte 'E'
    · have hsign : (skipOne (fun b => b == byte '+' || b == byte '-') s).2 = (signAt s).2 := by
        cases s with
        | nil => rfl
        | cons b' s =>
          by_cases hb' : b' = byte '+' ∨ b' = byte '-'
          · simp [skipOne, signAt, hb']
          · simp [skipOne, signAt, hb']
      have hskip := @skipIf_terminated (fun b => b == byte '+' || b == byte '-') (by decide) s
      rw [hsign] at hskip
      simp [skipOne, exponentAt, hb, hskip]
    · simp [skipOne, exponentAt, hb]

/-- **What is read for a number**: the number at the cursor, if it is not too long. -/
lemma parseJSONNumber_eq (lib : Library δ) (s : List UInt8) :
    parseJSONNumber lib (terminated s) = .ok (if (numberAt s).1.bytes.length < 64 then
      some ((numberAt s).1.value lib, terminated (numberAt s).2) else none) := by
  have hbytes := numberAt_bytes s
  have hcat : terminated s = (numberAt s).1.bytes ++ terminated (numberAt s).2 := by
    rw [terminated, terminated, ← List.append_assoc, hbytes]
  have hlen : (terminated s).length - (terminated (numberAt s).2).length =
      (numberAt s).1.bytes.length := by
    rw [hcat, List.length_append]
    omega
  have htake : (terminated s).take (numberAt s).1.bytes.length = (numberAt s).1.bytes := by
    rw [hcat, List.take_left]
  have hrest : terminated (numberAt s).2 = terminated (exponentAt (fractionAt
      ((skipOne (· == byte '-') s).2.dropWhile isdigit)).2).2 := rfl
  rw [parseJSONNumber, skipIf_terminated (by decide)]
  simp only [ok_bind, scan_isdigit_terminated, skipFraction_terminated, skipExponent_terminated]
  rw [← hrest, hlen, htake]
  by_cases hshort : (numberAt s).1.bytes.length < 64
  · have hkind : ((fractionAt ((skipOne (· == byte '-') s).2.dropWhile isdigit)).1.isSome ||
        (exponentAt (fractionAt ((skipOne (· == byte '-') s).2.dropWhile isdigit)).2).1.isSome) =
          ((numberAt s).1.frac.isSome || (numberAt s).1.exp.isSome) := rfl
    rw [if_neg (by omega), if_pos hshort, Number.value, hkind]
    split_ifs <;> rfl
  · rw [if_pos (by omega), if_neg hshort]

/-! ## Strings -/

/-- The loop over a string stops here: at the end of the text, at a NUL, at a quotation mark, or
in an escape that lacks characters. -/
def BodyEnd (s : List UInt8) : Prop :=
  (∀ b ∈ s.head?, b = 0 ∨ b = byte '"') ∨ CutEscape s

/-- **Every text starts with some characters of a string**, up to where the loop stops.

**Proof sketch.** Strong induction on the length of the text, by its first characters. -/
lemma exists_body (s : List UInt8) : ∃ items e, (∀ i ∈ items, i.WellFormed) ∧ BodyEnd e ∧
    s = bodyBytes items ++ e := by
  have hnone : ∀ e, BodyEnd e → ∃ items e', (∀ i ∈ items, Item.WellFormed i) ∧ BodyEnd e' ∧
      e = bodyBytes items ++ e' := fun e he => ⟨[], e, by simp, he, rfl⟩
  have hcons : ∀ (i : Item) (s : List UInt8), i.WellFormed → (∃ items e,
      (∀ i ∈ items, Item.WellFormed i) ∧ BodyEnd e ∧ s = bodyBytes items ++ e) → ∃ items e,
        (∀ i ∈ items, Item.WellFormed i) ∧ BodyEnd e ∧ i.bytes ++ s = bodyBytes items ++ e := by
    rintro i s hi ⟨items, e, hitems, he, rfl⟩
    exact ⟨i :: items, e, by simpa using ⟨hi, hitems⟩, he, by simp [bodyBytes]⟩
  induction hlen : s.length using Nat.strong_induction_on generalizing s with
  | h n ih =>
    cases s with
    | nil => exact hnone [] (Or.inl (by simp))
    | cons b s =>
      rw [List.length_cons] at hlen
      by_cases hstop : b = 0 ∨ b = byte '"'
      · exact hnone _ (Or.inl (by simpa using hstop))
      · rw [not_or] at hstop
        by_cases hslash : b = byte '\\'
        · subst hslash
          cases s with
          | nil => exact hnone _ (Or.inr (Or.inl rfl))
          | cons b s =>
            rw [List.length_cons] at hlen
            by_cases hu : b = byte 'u'
            · subst hu
              rcases s with _ | ⟨h₁, _ | ⟨h₂, _ | ⟨h₃, _ | ⟨h₄, s⟩⟩⟩⟩
              · exact hnone _ (Or.inr (Or.inr ⟨_, by simp, rfl⟩))
              · exact hnone _ (Or.inr (Or.inr ⟨_, by simp, rfl⟩))
              · exact hnone _ (Or.inr (Or.inr ⟨_, by simp, rfl⟩))
              · exact hnone _ (Or.inr (Or.inr ⟨_, by simp, rfl⟩))
              · simp only [List.length_cons] at hlen
                exact hcons (.unicode h₁ h₂ h₃ h₄) s trivial (ih s.length (by omega) s rfl)
            · exact hcons (.escape b) s hu (ih s.length (by omega) s rfl)
        · exact hcons (.char b) s ⟨hstop.1, hstop.2, hslash⟩ (ih s.length (by omega) s rfl)

/-- The loop does not stop in front of a character. -/
private lemma not_bodyEnd {i : Item} (hi : i.WellFormed) (s : List UInt8) :
    ¬BodyEnd (i.bytes ++ s) := by
  rintro (h | h | ⟨hex, hlen, h⟩)
  · cases i with
    | char b =>
      rcases h b rfl with h | h
      · exact hi.1 h
      · exact hi.2.1 h
    | escape b =>
      rcases h (byte '\\') rfl with h | h
      · exact absurd h (by decide)
      · exact absurd h (by decide)
    | unicode =>
      rcases h (byte '\\') rfl with h | h
      · exact absurd h (by decide)
      · exact absurd h (by decide)
  · cases i with
    | char b => exact hi.2.2 (List.cons.inj h).1
    | escape b => simp [Item.bytes] at h
    | unicode => simp [Item.bytes] at h
  · cases i with
    | char b => exact hi.2.2 (List.cons.inj h).1
    | escape b => exact hi (List.cons.inj (List.cons.inj h).2).1
    | unicode h₁ h₂ h₃ h₄ =>
      have heq : [h₁, h₂, h₃, h₄] ++ s = hex := (List.cons.inj (List.cons.inj h).2).2
      rw [← heq, List.length_append, List.length_cons] at hlen
      simp at hlen

/-- The first characters of a text are determined. -/
private lemma item_unique {i i' : Item} (hi : i.WellFormed) (hi' : i'.WellFormed)
    {s s' : List UInt8} (h : i.bytes ++ s = i'.bytes ++ s') : i = i' ∧ s = s' := by
  cases i with
  | char b =>
    cases i' with
    | char b' =>
      obtain ⟨rfl, rfl⟩ := List.cons.inj h
      exact ⟨rfl, rfl⟩
    | escape b' => exact absurd (List.cons.inj h).1 hi.2.2
    | unicode => exact absurd (List.cons.inj h).1 hi.2.2
  | escape b =>
    cases i' with
    | char b' => exact absurd (List.cons.inj h).1.symm hi'.2.2
    | escape b' =>
      obtain ⟨rfl, rfl⟩ := List.cons.inj (List.cons.inj h).2
      exact ⟨rfl, rfl⟩
    | unicode => exact absurd (List.cons.inj (List.cons.inj h).2).1 hi
  | unicode h₁ h₂ h₃ h₄ =>
    cases i' with
    | char b' => exact absurd (List.cons.inj h).1.symm hi'.2.2
    | escape b' => exact absurd (List.cons.inj (List.cons.inj h).2).1.symm hi'
    | unicode h₁' h₂' h₃' h₄' =>
      simp only [Item.bytes, List.cons_append, List.nil_append, List.cons.injEq, true_and] at h
      obtain ⟨rfl, rfl, rfl, rfl, rfl⟩ := h
      exact ⟨rfl, rfl⟩

/-- **A text is read as one list of characters only.** -/
lemma body_unique {items items' : List Item} (hi : ∀ i ∈ items, i.WellFormed)
    (hi' : ∀ i ∈ items', i.WellFormed) {e e' : List UInt8} (he : BodyEnd e) (he' : BodyEnd e')
    (h : bodyBytes items ++ e = bodyBytes items' ++ e') : items = items' ∧ e = e' := by
  induction items generalizing items' with
  | nil =>
    cases items' with
    | nil => exact ⟨rfl, h⟩
    | cons i' items' =>
      have hcat : e = i'.bytes ++ (bodyBytes items' ++ e') := by
        simpa [bodyBytes] using h
      exact absurd (hcat ▸ he) (not_bodyEnd (hi' i' List.mem_cons_self) _)
  | cons i items ih =>
    cases items' with
    | nil =>
      have hcat : e' = i.bytes ++ (bodyBytes items ++ e) := by
        simpa [bodyBytes] using h.symm
      exact absurd (hcat ▸ he') (not_bodyEnd (hi i List.mem_cons_self) _)
    | cons i' items' =>
      have hcat : i.bytes ++ (bodyBytes items ++ e) = i'.bytes ++ (bodyBytes items' ++ e') := by
        simpa [bodyBytes] using h
      obtain ⟨rfl, htail⟩ := item_unique (hi i List.mem_cons_self) (hi' i' List.mem_cons_self) hcat
      obtain ⟨rfl, rfl⟩ := ih (fun j hj => hi j (List.mem_cons_of_mem _ hj))
        (fun j hj => hi' j (List.mem_cons_of_mem _ hj)) htail
      exact ⟨rfl, rfl⟩

/-- There is room in the array for one more byte than is stored, as before every character. -/
def Output.Room (o : Output) : Prop := 64 ≤ o.cap ∧ o.stored.length < o.cap

/-- Enlarging the array makes room for the longest character. -/
private lemma Output.Room.grow {o : Output} (h : o.Room) :
    o.grow.stored = o.stored ∧ 64 ≤ o.grow.cap ∧ o.stored.length + 6 < o.grow.cap := by
  obtain ⟨h64, hlt⟩ := h
  rw [Output.grow]
  split_ifs with hfull
  · exact ⟨rfl, by dsimp only; omega, by dsimp only; omega⟩
  · exact ⟨rfl, h64, by omega⟩

/-- Bytes for which there is room are stored. -/
lemma putAll_eq {o : Output} {bs : List UInt8} (h : o.stored.length + bs.length ≤ o.cap) :
    o.putAll bs = .ok ⟨o.stored ++ bs, o.cap⟩ := by
  induction bs generalizing o with
  | nil => simp [Output.putAll]
  | cons b bs ih =>
    rw [List.length_cons] at h
    have hput : o.put b = .ok ⟨o.stored ++ [b], o.cap⟩ := by
      rw [Output.put, if_pos (by omega)]
    rw [Output.putAll, hput, ok_bind, ih]
    · simp
    · simp only [List.length_append, List.length_singleton]
      omega

/-- A code point takes at most three bytes. -/
private lemma length_encodeCodePoint_le (cp : BitVec 32) : (encodeCodePoint cp).length ≤ 3 := by
  unfold encodeCodePoint
  split_ifs <;> simp

/-- One character of a string. -/
private lemma stringLoop_item {i : Item} (hi : i.WellFormed) (fuel : ℕ) (s : List UInt8)
    {o : Output} (ho : o.Room) : ∃ o' : Output, o'.Room ∧ o'.stored = o.stored ++ i.stored ∧
      stringLoop (fuel + 1) (terminated (i.bytes ++ s)) o = stringLoop fuel (terminated s) o' := by
  obtain ⟨hstored, h64, hroom⟩ := ho.grow
  have hput : ∀ b, o.grow.put b = .ok ⟨o.stored ++ [b], o.grow.cap⟩ := fun b => by
    rw [Output.put, hstored, if_pos (by omega)]
  have hRoom : ∀ bs : List UInt8, bs.length ≤ 3 →
      (⟨o.stored ++ bs, o.grow.cap⟩ : Output).Room := fun bs hbs =>
    ⟨h64, by simp only [List.length_append]; omega⟩
  have hslash : ¬(byte '\\' = 0 ∨ byte '\\' = byte '"') := by decide
  cases i with
  | char b =>
    obtain ⟨h0, hquote, hne⟩ := hi
    refine ⟨_, hRoom [b] (by simp), rfl, ?_⟩
    have hstop : ¬(b = 0 ∨ b = byte '"') := by
      rintro (h | h)
      · exact h0 h
      · exact hquote h
    simp [stringLoop, Item.bytes, hstop, hne, hput]
  | escape b =>
    refine ⟨_, hRoom [unescaped b] (by simp), rfl, ?_⟩
    have hu : b ≠ byte 'u' := hi
    simp [stringLoop, Item.bytes, hslash, readEscape, hu, hput]
  | unicode h₁ h₂ h₃ h₄ =>
    have hle := length_encodeCodePoint_le (codePoint [h₁, h₂, h₃, h₄])
    refine ⟨_, hRoom (encodeCodePoint (codePoint [h₁, h₂, h₃, h₄])) hle, rfl, ?_⟩
    have hputAll : o.grow.putAll (encodeCodePoint (codePoint [h₁, h₂, h₃, h₄])) =
        .ok ⟨o.stored ++ encodeCodePoint (codePoint [h₁, h₂, h₃, h₄]), o.grow.cap⟩ := by
      rw [putAll_eq (by rw [hstored]; omega), hstored]
    have hderef : ∀ n b, (byte 'u' :: h₁ :: h₂ :: h₃ :: h₄ :: s)[n]? = some b →
        deref (terminated (byte 'u' :: h₁ :: h₂ :: h₃ :: h₄ :: s)) n = .ok b := fun n b hb => by
      have hlt := (List.getElem?_eq_some_iff.mp hb).1
      rw [deref, List.head?_drop, terminated, List.getElem?_append_left hlt, hb]
    have hstep : step (terminated (byte 'u' :: h₁ :: h₂ :: h₃ :: h₄ :: s)) 4 =
        .ok (terminated (h₄ :: s)) := step_terminated_append [byte 'u', h₁, h₂, h₃] (h₄ :: s)
    simp [stringLoop, Item.bytes, hslash, readEscape, hderef 1 h₁ rfl, hderef 2 h₂ rfl,
      hderef 3 h₃ rfl, hderef 4 h₄ rfl, hstep, hputAll]

/-- The characters of a string. -/
private lemma stringLoop_body {items : List Item} (hi : ∀ i ∈ items, i.WellFormed) (fuel : ℕ)
    (s : List UInt8) {o : Output} (ho : o.Room) : ∃ o' : Output, o'.Room ∧
      o'.stored = o.stored ++ items.flatMap Item.stored ∧
      stringLoop (items.length + fuel) (terminated (bodyBytes items ++ s)) o =
        stringLoop fuel (terminated s) o' := by
  induction items generalizing o with
  | nil => exact ⟨o, ho, by simp, by simp [bodyBytes]⟩
  | cons i items ih =>
    obtain ⟨o₁, ho₁, hstored₁, hloop₁⟩ := stringLoop_item (hi i List.mem_cons_self)
      (items.length + fuel) (bodyBytes items ++ s) ho
    obtain ⟨o₂, ho₂, hstored₂, hloop₂⟩ := ih (fun j hj => hi j (List.mem_cons_of_mem _ hj)) ho₁
    refine ⟨o₂, ho₂, by simp [hstored₂, hstored₁], ?_⟩
    have hcat : bodyBytes (i :: items) ++ s = i.bytes ++ (bodyBytes items ++ s) := by
      simp [bodyBytes]
    rw [List.length_cons, Nat.add_right_comm, hcat, hloop₁, hloop₂]

/-- A list of characters is no longer than its text. -/
private lemma length_le_bodyBytes (items : List Item) : items.length ≤ (bodyBytes items).length := by
  induction items with
  | nil => exact le_rfl
  | cons i items ih =>
    have hpos : 0 < i.bytes.length := by
      cases i <;> simp [Item.bytes]
    have hcat : (bodyBytes (i :: items)).length = i.bytes.length + (bodyBytes items).length := by
      simp [bodyBytes]
    rw [List.length_cons, hcat]
    omega

/-- In an escape that lacks characters the loop leaves the text. -/
private lemma stringLoop_cut {cut : List UInt8} (h : CutEscape cut) (fuel : ℕ) {o : Output}
    (ho : o.Room) : stringLoop (fuel + 1) (terminated cut) o = .error .outOfBounds := by
  obtain ⟨hstored, h64, hroom⟩ := ho.grow
  have hput : ∀ b, o.grow.put b = .ok ⟨o.stored ++ [b], o.grow.cap⟩ := fun b => by
    rw [Output.put, hstored, if_pos (by omega)]
  have hslash : ¬(byte '\\' = 0 ∨ byte '\\' = byte '"') := by decide
  rcases h with rfl | ⟨hex, hlen, rfl⟩
  · have hu : (0 : UInt8) ≠ byte 'u' := by decide
    simp [stringLoop, hslash, readEscape, hu, hput]
    rfl
  · rcases hex with _ | ⟨h₁, _ | ⟨h₂, _ | ⟨h₃, _ | ⟨h₄, hex⟩⟩⟩⟩
    · simp [stringLoop, hslash, readEscape, deref, terminated, step]
      rfl
    · simp [stringLoop, hslash, readEscape, deref, terminated, step]
      rfl
    · simp [stringLoop, hslash, readEscape, deref, terminated, step]
      rfl
    · -- the four characters are read, the terminator being the last, and the next step leaves
      have hle := length_encodeCodePoint_le (codePoint [h₁, h₂, h₃, 0])
      have hputAll : o.grow.putAll (encodeCodePoint (codePoint [h₁, h₂, h₃, 0])) =
          .ok ⟨o.stored ++ encodeCodePoint (codePoint [h₁, h₂, h₃, 0]), o.grow.cap⟩ := by
        rw [putAll_eq (by rw [hstored]; omega), hstored]
      simp [stringLoop, hslash, readEscape, deref, terminated, step, hputAll]
      rfl
    · simp only [List.length_cons] at hlen
      omega

/-- The loop over the characters of a string, up to where it stops. -/
private lemma stringLoop_start {items : List Item} (hi : ∀ i ∈ items, i.WellFormed)
    (e : List UInt8) : ∃ (o : Output) (fuel : ℕ), o.Room ∧
      o.stored = items.flatMap Item.stored ∧
      stringLoop (terminated (bodyBytes items ++ e)).length (terminated (bodyBytes items ++ e))
        ⟨[], 64⟩ = stringLoop (fuel + 1) (terminated e) o := by
  have hroom : (⟨[], 64⟩ : Output).Room := ⟨le_rfl, by simp⟩
  have hle := length_le_bodyBytes items
  obtain ⟨fuel, hfuel⟩ : ∃ fuel, (terminated (bodyBytes items ++ e)).length =
      items.length + (fuel + 1) := by
    refine ⟨(bodyBytes items).length + e.length - items.length, ?_⟩
    simp only [terminated, List.length_append, List.length_singleton]
    omega
  obtain ⟨o, ho, hstored, hloop⟩ := stringLoop_body hi (fuel + 1) e hroom
  exact ⟨o, fuel, ho, by simpa using hstored, by rw [hfuel, hloop]⟩

/-- **A string is read as it is written.** -/
lemma parseJSONString_append {items : List Item} (hi : ∀ i ∈ items, i.WellFormed)
    (s : List UInt8) : parseJSONString (terminated (stringBytes items ++ s)) =
      .ok (some (stringValue items, terminated s)) := by
  obtain ⟨o, fuel, ho, hstored, hloop⟩ := stringLoop_start hi (byte '"' :: s)
  have hcat : stringBytes items ++ s = byte '"' :: (bodyBytes items ++ byte '"' :: s) := by
    simp [stringBytes]
  have hstop : stringLoop (fuel + 1) (terminated (byte '"' :: s)) o =
      .ok (terminated (byte '"' :: s), o) := by
    simp [stringLoop]
  have hput : o.put 0 = .ok ⟨o.stored ++ [0], o.cap⟩ := by
    rw [Output.put, if_pos ho.2]
  have hvalue : initWithUTF8String (o.stored ++ [0]) = stringValue items := by
    rw [initWithUTF8String, CString.bytes_ofBytes_terminated, hstored, stringValue,
      initWithUTF8String]
  rw [hcat, parseJSONString]
  simp only [deref_terminated_cons, step_terminated_cons, ok_bind, hloop, hstop, hput, hvalue,
    ne_eq, not_true_eq_false, if_false]

/-- **A string that ends in the middle of an escape is read beyond the terminator.** -/
lemma parseJSONString_cut {items : List Item} (hi : ∀ i ∈ items, i.WellFormed)
    {cut : List UInt8} (hcut : CutEscape cut) :
    parseJSONString (terminated (byte '"' :: (bodyBytes items ++ cut))) =
      .error .outOfBounds := by
  obtain ⟨o, fuel, ho, -, hloop⟩ := stringLoop_start hi cut
  rw [parseJSONString]
  simp only [deref_terminated_cons, step_terminated_cons, ok_bind, hloop, stringLoop_cut hcut fuel ho,
    ne_eq, not_true_eq_false, if_false]
  rfl

/-- **What is read for a string**: nothing, the string at the cursor, or too much. -/
lemma parseJSONString_cases (s : List UInt8) :
    parseJSONString (terminated s) = .ok none ∨
    (∃ items r, (∀ i ∈ items, Item.WellFormed i) ∧ s = stringBytes items ++ r ∧
      parseJSONString (terminated s) = .ok (some (stringValue items, terminated r))) ∨
    ∃ items cut, (∀ i ∈ items, Item.WellFormed i) ∧ CutEscape cut ∧
      s = byte '"' :: (bodyBytes items ++ cut) ∧
      parseJSONString (terminated s) = .error .outOfBounds := by
  cases s with
  | nil => exact Or.inl (by simp [parseJSONString]; decide)
  | cons b s =>
    by_cases hquote : b = byte '"'
    · subst hquote
      obtain ⟨items, e, hi, he, rfl⟩ := exists_body s
      rcases he with he | hcut
      · by_cases hend : e.head? = some (byte '"')
        · cases e with
          | nil => cases hend
          | cons b r =>
            obtain rfl := Option.some.inj hend
            have hcat : byte '"' :: (bodyBytes items ++ byte '"' :: r) = stringBytes items ++ r := by
              simp [stringBytes]
            rw [hcat]
            exact Or.inr (Or.inl ⟨items, r, hi, rfl, parseJSONString_append hi r⟩)
        · -- the loop stops at a NUL or at the end
          left
          obtain ⟨o, fuel, -, -, hloop⟩ := stringLoop_start hi e
          have hstop : stringLoop (fuel + 1) (terminated e) o = .ok (terminated e, o) ∧
              ∃ b, deref (terminated e) 0 = .ok b ∧ b ≠ byte '"' := by
            cases e with
            | nil => exact ⟨by simp [stringLoop], 0, rfl, by decide⟩
            | cons b e =>
              have hne : b ≠ byte '"' := fun h => hend (by rw [h]; rfl)
              exact ⟨by simp [stringLoop, (he b rfl)], b, rfl, hne⟩
          obtain ⟨hstop, b, hderef, hne⟩ := hstop
          rw [parseJSONString]
          simp only [deref_terminated_cons, step_terminated_cons, ok_bind, hloop, hstop, hderef,
            ne_eq, not_true_eq_false, if_false, hne, not_false_eq_true, if_true]
      · exact Or.inr (Or.inr ⟨items, e, hi, hcut, rfl, parseJSONString_cut hi hcut⟩)
    · exact Or.inl (by simp [parseJSONString, hquote])

end Asteros.Foundation.Json
