import Asteros.Libc.Ascii

set_option autoImplicit false

/-!
# Glob patterns

`fnmatch` of `fnmatch.c`. A pattern is read as a list of tokens, and the tokens denote a language;
`do_match` decides it. A bracket expression is negated by `!` and, as the header of the file has
it, by `^`.

## Main definitions

* `doMatch`, `fnmatch` — the functions.
* `Token`, `Tokens` — what a pattern whose brackets are closed consists of.
* `Token.Admits`, `Language` — what they denote.

## Main results

* `doMatch_iff` — `do_match` decides the language of the tokens.
* `fnmatch_iff` — `fnmatch` does.
-/

namespace Asteros.Libc

/-! ## The functions -/

/-- `FNM_NOMATCH`. -/
def FNM_NOMATCH : ℤ := 1

/-- `FNM_NOESCAPE`. -/
def FNM_NOESCAPE : ℕ := 0x01

/-- `FNM_CASEFOLD`. -/
def FNM_CASEFOLD : ℕ := 0x08

/-- `lower`. -/
def lower (c : UInt8) : UInt8 :=
  if byte 'A' ≤ c ∧ c ≤ byte 'Z' then c - byte 'A' + byte 'a' else c

/-- `fold ? lower(c) : c`. -/
def foldCase (fold : Bool) (c : UInt8) : UInt8 := if fold then lower c else c

/-- Whether `c` is one of the characters from `lo` to `hi`. -/
def inRange (fold : Bool) (c lo hi : UInt8) : Bool :=
  foldCase fold lo ≤ foldCase fold c && foldCase fold c ≤ foldCase fold hi

/-- The loop of `match_class`, and the step over the `]` that ends it. -/
def classLoop (fold : Bool) (c : UInt8) : List UInt8 → Bool → Bool → Bool × List UInt8
  | [], _, hit => (hit, [])
  | [lo], first, hit =>
    if lo = byte ']' ∧ !first then (hit, []) else (hit || inRange fold c lo lo, [])
  | [lo, d], first, hit =>
    if lo = byte ']' ∧ !first then (hit, [d])
    else classLoop fold c [d] false (hit || inRange fold c lo lo)
  | lo :: d :: hi :: p, first, hit =>
    if lo = byte ']' ∧ !first then (hit, d :: hi :: p)
    else if d = byte '-' ∧ hi ≠ byte ']' then
      classLoop fold c p false (hit || inRange fold c lo hi)
    else classLoop fold c (d :: hi :: p) false (hit || inRange fold c lo lo)

/-- `match_class`, from behind the `[` on. -/
def matchClass (fold : Bool) (p : List UInt8) (c : UInt8) : Bool × List UInt8 :=
  let neg := p.head? = some (byte '!') || p.head? = some (byte '^')
  let r := classLoop fold c (if neg then p.tail else p) true false
  (if neg then !r.1 else r.1, r.2)

/-- The character that the first one of the pattern stands for, and the pattern behind it. -/
def unquote (noescape : Bool) (b : UInt8) : List UInt8 → UInt8 × List UInt8
  | [] => (b, [])
  | d :: p => if noescape = false ∧ b = byte '\\' then (d, p) else (b, d :: p)

/-- The loop over the rest of the string behind a `*`. -/
def anySuffix (f : List UInt8 → Bool) : List UInt8 → Bool
  | [] => false
  | c :: s => f (c :: s) || anySuffix f s

/-- A bracket expression takes none of the pattern back. -/
lemma length_classLoop_le (fold : Bool) (c : UInt8) (p : List UInt8) (first hit : Bool) :
    (classLoop fold c p first hit).2.length ≤ p.length := by
  fun_induction classLoop fold c p first hit <;> simp_all <;> omega

/-- Nor does `match_class`. -/
lemma length_matchClass_le (fold : Bool) (p : List UInt8) (c : UInt8) :
    (matchClass fold p c).2.length ≤ p.length := by
  refine (length_classLoop_le fold c _ true false).trans ?_
  split_ifs <;> simp

/-- Nor does a quoted character. -/
lemma length_unquote_le (noescape : Bool) (b : UInt8) (p : List UInt8) :
    (unquote noescape b p).2.length ≤ p.length := by
  cases p with
  | nil => exact le_rfl
  | cons d p =>
    unfold unquote
    split_ifs <;> simp

/-- `do_match`. -/
def doMatch (noescape fold : Bool) (pat s : List UInt8) : Bool :=
  match pat with
  | [] => s.isEmpty
  | b :: p =>
    if b = byte '*' then
      if p.dropWhile (· = byte '*') = [] then true
      else anySuffix (doMatch noescape fold (p.dropWhile (· = byte '*'))) s
    else
      match s with
      | [] => false
      | c :: s =>
        if b = byte '?' then doMatch noescape fold p s
        else if b = byte '[' then
          (matchClass fold p c).1 && doMatch noescape fold (matchClass fold p c).2 s
        else
          foldCase fold (unquote noescape b p).1 = foldCase fold c &&
            doMatch noescape fold (unquote noescape b p).2 s
  termination_by pat.length
  decreasing_by
    · exact Nat.lt_succ_of_le (List.dropWhile_sublist _).length_le
    · exact Nat.lt_succ_self _
    · exact Nat.lt_succ_of_le (length_matchClass_le fold p c)
    · exact Nat.lt_succ_of_le (length_unquote_le noescape b p)

/-- `fnmatch`. -/
def fnmatch (pattern string : CString) (flags : ℕ) : ℤ :=
  if doMatch (flags &&& FNM_NOESCAPE ≠ 0) (flags &&& FNM_CASEFOLD ≠ 0) pattern.bytes string.bytes
  then 0 else FNM_NOMATCH

/-! ## Patterns -/

/-- What a pattern consists of. -/
inductive Token where
  /-- `*`. -/
  | star
  /-- `?`. -/
  | any
  /-- A bracket expression, with its characters and ranges. -/
  | bracket (neg : Bool) (items : List (UInt8 × UInt8))
  /-- A character that stands for itself. -/
  | char (c : UInt8)

/-- The characters and ranges of a bracket expression, and what follows its `]`. A `]` that comes
first is a character, and a `-` in front of the `]` is one. -/
inductive Items : Bool → List UInt8 → List (UInt8 × UInt8) → List UInt8 → Prop where
  | close {rest : List UInt8} : Items false (byte ']' :: rest) [] rest
  | range {first : Bool} {lo hi : UInt8} {p rest : List UInt8} {items : List (UInt8 × UInt8)} :
      (lo = byte ']' → first = true) → hi ≠ byte ']' → Items false p items rest →
      Items first (lo :: byte '-' :: hi :: p) ((lo, hi) :: items) rest
  | single {first : Bool} {lo : UInt8} {p rest : List UInt8} {items : List (UInt8 × UInt8)} :
      (lo = byte ']' → first = true) →
      (∀ hi p', p = byte '-' :: hi :: p' → hi = byte ']') → Items false p items rest →
      Items first (lo :: p) ((lo, lo) :: items) rest

/-- The tokens of a pattern whose bracket expressions are closed; `marks` are the characters that
negate one. -/
inductive Tokens (marks : List UInt8) (noescape : Bool) : List UInt8 → List Token → Prop where
  | nil : Tokens marks noescape [] []
  | star {p : List UInt8} {ts : List Token} : Tokens marks noescape p ts →
      Tokens marks noescape (byte '*' :: p) (.star :: ts)
  | any {p : List UInt8} {ts : List Token} : Tokens marks noescape p ts →
      Tokens marks noescape (byte '?' :: p) (.any :: ts)
  | negated {m : UInt8} {p rest : List UInt8} {items : List (UInt8 × UInt8)} {ts : List Token} :
      m ∈ marks → Items true p items rest → Tokens marks noescape rest ts →
      Tokens marks noescape (byte '[' :: m :: p) (.bracket true items :: ts)
  | listed {p rest : List UInt8} {items : List (UInt8 × UInt8)} {ts : List Token} :
      (∀ m ∈ marks, p.head? ≠ some m) → Items true p items rest → Tokens marks noescape rest ts →
      Tokens marks noescape (byte '[' :: p) (.bracket false items :: ts)
  | quoted {c : UInt8} {p : List UInt8} {ts : List Token} : noescape = false →
      Tokens marks noescape p ts → Tokens marks noescape (byte '\\' :: c :: p) (.char c :: ts)
  | char {c : UInt8} {p : List UInt8} {ts : List Token} : c ∉ ascii "*?[" →
      (c = byte '\\' → noescape = true ∨ p = []) → Tokens marks noescape p ts →
      Tokens marks noescape (c :: p) (.char c :: ts)

/-- The letters, each capital one with its small one. -/
def letters : List (UInt8 × UInt8) :=
  (ascii "ABCDEFGHIJKLMNOPQRSTUVWXYZ").zip (ascii "abcdefghijklmnopqrstuvwxyz")

/-- The same character, or under `FNM_CASEFOLD` the same letter. -/
def SameCharacter (fold : Bool) (c d : UInt8) : Prop :=
  c = d ∨ fold = true ∧ ((c, d) ∈ letters ∨ (d, c) ∈ letters)

/-- `d` is `c`, or the small letter if `c` is a capital one. -/
def IsSmall (c d : UInt8) : Prop := (c, d) ∈ letters ∨ c = d ∧ c ∉ letters.map Prod.fst

/-- A character from `lo` to `hi`. Under `FNM_CASEFOLD` it is the small letters that are compared,
also for the ends of the range. -/
def IsBetween (fold : Bool) (c lo hi : UInt8) : Prop :=
  if fold then ∃ d l h, IsSmall c d ∧ IsSmall lo l ∧ IsSmall hi h ∧ l ≤ d ∧ d ≤ h
  else lo ≤ c ∧ c ≤ hi

/-- A token other than `*` stands for the character. -/
def Token.Admits (fold : Bool) (c : UInt8) : Token → Prop
  | .star | .any => True
  | .bracket neg items => (∃ i ∈ items, IsBetween fold c i.1 i.2) ↔ neg = false
  | .char d => SameCharacter fold d c

/-- The language of the tokens. -/
def Language (fold : Bool) : List Token → List UInt8 → Prop
  | [], s => s = []
  | .star :: ts, s => ∃ u v, s = u ++ v ∧ Language fold ts v
  | t :: ts, s => ∃ c v, s = c :: v ∧ t.Admits fold c ∧ Language fold ts v

/-! ## Characters -/

/-- `lower` gives the small letters. -/
lemma lower_letters : ∀ e ∈ letters, lower e.1 = e.2 ∧ lower e.2 = e.2 := by
  have hall : letters.all (fun e => lower e.1 = e.2 ∧ lower e.2 = e.2) := by
    decide +kernel
  simpa only [List.all_eq_true, decide_eq_true_eq] using hall

/-- No two capital letters have the same small one. -/
lemma letters_injective {e e' : UInt8 × UInt8} (h : e ∈ letters) (h' : e' ∈ letters)
    (heq : e.2 = e'.2) : e.1 = e'.1 := by
  have hall : letters.all (fun e => e.1 = e.2 - 32) := by
    decide +kernel
  simp only [List.all_eq_true, decide_eq_true_eq] at hall
  rw [hall e h, hall e' h', heq]

/-- And the capital ones are those that it changes. -/
lemma lower_cases (c : UInt8) : (c, lower c) ∈ letters ∨ lower c = c ∧ c ∉ letters.map Prod.fst := by
  by_cases h : byte 'A' ≤ c ∧ c ≤ byte 'Z'
  · have hall : ∀ n < 26, (UInt8.ofNat (65 + n), UInt8.ofNat (97 + n)) ∈ letters := by
      decide +kernel
    have hlo : 65 ≤ c.toNat := UInt8.le_iff_toNat_le.mp h.1
    have hhi : c.toNat ≤ 90 := UInt8.le_iff_toNat_le.mp h.2
    have hc : UInt8.ofNat (65 + (c.toNat - 65)) = c := by
      rw [Nat.add_sub_of_le hlo, UInt8.ofNat_toNat]
    have hmem := hall (c.toNat - 65) (by omega)
    rw [hc] at hmem
    have hlower : lower c = UInt8.ofNat (97 + (c.toNat - 65)) := (lower_letters _ hmem).1
    exact .inl (hlower ▸ hmem)
  · refine .inr ⟨if_neg h, fun hin => h ?_⟩
    have hall : ∀ d ∈ letters.map Prod.fst, byte 'A' ≤ d ∧ d ≤ byte 'Z' := by
      decide +kernel
    exact hall c hin

/-- The small letter of a character is what `lower` gives. -/
lemma isSmall_iff {c d : UInt8} : IsSmall c d ↔ lower c = d := by
  constructor
  · rintro (h | ⟨rfl, h⟩)
    · exact (lower_letters _ h).1
    · rcases lower_cases c with hin | ⟨heq, -⟩
      · exact absurd (List.mem_map_of_mem hin) h
      · exact heq
  · rintro rfl
    rcases lower_cases c with hin | ⟨heq, hnot⟩
    · exact .inl hin
    · exact .inr ⟨heq.symm, hnot⟩

/-- The comparison of a bracket expression. -/
lemma inRange_iff {fold : Bool} {c lo hi : UInt8} :
    inRange fold c lo hi = true ↔ IsBetween fold c lo hi := by
  cases fold <;> simp [inRange, IsBetween, foldCase, isSmall_iff]

/-- The comparison of a single character. -/
lemma foldCase_eq_iff {fold : Bool} {c d : UInt8} :
    foldCase fold c = foldCase fold d ↔ SameCharacter fold c d := by
  cases fold with
  | false => simp [foldCase, SameCharacter]
  | true =>
    simp only [foldCase, SameCharacter, if_true, true_and]
    constructor
    · intro heq
      rcases lower_cases c with hc | ⟨hc, -⟩ <;> rcases lower_cases d with hd | ⟨hd, -⟩
      · exact .inl (letters_injective hc hd heq)
      · exact .inr (.inl (hd ▸ heq ▸ hc))
      · exact .inr (.inr (hc ▸ heq ▸ hd))
      · exact .inl (hc ▸ hd ▸ heq)
    · rintro (rfl | h | h)
      · rfl
      · exact (lower_letters _ h).1.trans (lower_letters _ h).2.symm
      · exact (lower_letters _ h).2.trans (lower_letters _ h).1.symm

/-! ## Bracket expressions -/

/-- `match_class` reads the characters and ranges. -/
lemma classLoop_of_items {first : Bool} {p rest : List UInt8} {items : List (UInt8 × UInt8)}
    (h : Items first p items rest) (fold : Bool) (c : UInt8) (hit : Bool) :
    classLoop fold c p first hit = (hit || items.any fun i => inRange fold c i.1 i.2, rest) := by
  induction h generalizing hit with
  | close => cases ‹List UInt8› with
    | nil => simp [classLoop]
    | cons d rest => cases rest <;> simp [classLoop]
  | range hlo hhi _ ih =>
    rw [classLoop, if_neg (by simpa using hlo), if_pos ⟨rfl, hhi⟩, ih, List.any_cons,
      Bool.or_assoc]
  | @single first lo p rest items hlo hnot hitems ih =>
    rw [List.any_cons, ← Bool.or_assoc]
    cases p with
    | nil => cases hitems
    | cons d p =>
      cases p with
      | nil => rw [classLoop, if_neg (by simpa using hlo), ih]
      | cons hi p =>
        have hrange : ¬(d = byte '-' ∧ hi ≠ byte ']') := by
          rintro ⟨rfl, hne⟩
          exact hne (hnot hi p rfl)
        rw [classLoop, if_neg (by simpa using hlo), if_neg hrange, ih]

/-! ## Languages -/

/-- Which strings have a suffix that is not empty and of which `f` holds. -/
lemma anySuffix_iff (f : List UInt8 → Bool) (s : List UInt8) :
    anySuffix f s = true ↔ ∃ u v, s = u ++ v ∧ v ≠ [] ∧ f v = true := by
  induction s with
  | nil => simp [anySuffix]
  | cons c s ih =>
    rw [anySuffix, Bool.or_eq_true, ih]
    constructor
    · rintro (h | ⟨u, v, rfl, hne, hv⟩)
      · exact ⟨[], c :: s, rfl, by simp, h⟩
      · exact ⟨c :: u, v, rfl, hne, hv⟩
    · rintro ⟨u, v, heq, hne, hv⟩
      cases u with
      | nil =>
        rw [List.nil_append] at heq
        exact .inl (heq ▸ hv)
      | cons d u =>
        rw [List.cons_append, List.cons.injEq] at heq
        exact .inr ⟨u, v, heq.2, hne, hv⟩

/-- Two stars in a row are one. -/
lemma language_star_star (fold : Bool) (ts : List Token) (s : List UInt8) :
    Language fold (.star :: .star :: ts) s ↔ Language fold (.star :: ts) s := by
  constructor
  · rintro ⟨u, v, rfl, u', w, rfl, hw⟩
    exact ⟨u ++ u', w, (List.append_assoc u u' w).symm, hw⟩
  · rintro ⟨u, v, rfl, hv⟩
    exact ⟨u, v, rfl, [], v, rfl, hv⟩

/-- A token that is no star takes one character. -/
lemma language_cons {t : Token} (ht : t ≠ .star) (fold : Bool) (ts : List Token)
    (s : List UInt8) : Language fold (t :: ts) s ↔
      ∃ c v, s = c :: v ∧ t.Admits fold c ∧ Language fold ts v := by
  cases t with
  | star => exact absurd rfl ht
  | any => exact Iff.rfl
  | bracket _ _ => exact Iff.rfl
  | char _ => exact Iff.rfl

variable {marks : List UInt8} {noescape : Bool}

/-- What is left behind the stars of a pattern does not begin with a star. -/
lemma Tokens.dropStars {p : List UInt8} {ts : List Token} (h : Tokens marks noescape p ts)
    (fold : Bool) :
    ∃ ts', Tokens marks noescape (p.dropWhile (· = byte '*')) ts' ∧ ts'.head? ≠ some .star ∧
      ∀ s, Language fold (.star :: ts) s ↔ Language fold (.star :: ts') s := by
  have hkeep : ∀ {c : UInt8} {q : List UInt8} {t : Token} {ts : List Token}, c ≠ byte '*' →
      t ≠ .star → Tokens marks noescape (c :: q) (t :: ts) →
      ∃ ts', Tokens marks noescape ((c :: q).dropWhile (· = byte '*')) ts' ∧
        ts'.head? ≠ some .star ∧
        ∀ s, Language fold (.star :: t :: ts) s ↔ Language fold (.star :: ts') s := by
    intro c q t ts hc ht h
    refine ⟨t :: ts, ?_, by simpa using ht, fun s => Iff.rfl⟩
    rwa [List.dropWhile_cons_of_neg (by simpa using hc)]
  induction h with
  | nil => exact ⟨[], .nil, by simp, fun s => Iff.rfl⟩
  | star _ ih =>
    obtain ⟨ts', htokens, hhead, hlang⟩ := ih
    refine ⟨ts', ?_, hhead, fun s => (language_star_star fold _ s).trans (hlang s)⟩
    rwa [List.dropWhile_cons_of_pos (by simp)]
  | any h _ => exact hkeep (by decide) (by simp) (.any h)
  | negated hm hitems h _ => exact hkeep (by decide) (by simp) (.negated hm hitems h)
  | listed hm hitems h _ => exact hkeep (by decide) (by simp) (.listed hm hitems h)
  | quoted hescape h _ => exact hkeep (by decide) (by simp) (.quoted hescape h)
  | char hc hescape h _ =>
    exact hkeep (fun heq => hc (heq ▸ by decide)) (by simp) (.char hc hescape h)

/-- The characters that negate a bracket expression in the code. -/
def codeMarks : List UInt8 := [byte '!', byte '^']

/-- Whether the characters and ranges of a bracket expression have the character. -/
lemma any_inRange_iff {fold : Bool} {c : UInt8} {items : List (UInt8 × UInt8)} :
    (items.any fun i => inRange fold c i.1 i.2) = true ↔ ∃ i ∈ items, IsBetween fold c i.1 i.2 := by
  simp only [List.any_eq_true, inRange_iff]

/-- `match_class` reads the bracket expression of a token. -/
lemma matchClass_negated {m : UInt8} (hm : m ∈ codeMarks) {p rest : List UInt8}
    {items : List (UInt8 × UInt8)} (h : Items true p items rest) (fold : Bool) (c : UInt8) :
    (matchClass fold (m :: p) c).2 = rest ∧
      ((matchClass fold (m :: p) c).1 = true ↔ (Token.bracket true items).Admits fold c) := by
  have hneg : m = byte '!' ∨ m = byte '^' := by simpa [codeMarks] using hm
  rw [Token.Admits, ← any_inRange_iff]
  simp [matchClass, hneg, classLoop_of_items h]

/-- And one that is not negated. -/
lemma matchClass_listed {p rest : List UInt8} (hp : ∀ m ∈ codeMarks, p.head? ≠ some m)
    {items : List (UInt8 × UInt8)} (h : Items true p items rest) (fold : Bool) (c : UInt8) :
    (matchClass fold p c).2 = rest ∧
      ((matchClass fold p c).1 = true ↔ (Token.bracket false items).Admits fold c) := by
  have hbang := hp (byte '!') (by decide)
  have hcaret := hp (byte '^') (by decide)
  rw [Token.Admits, ← any_inRange_iff]
  simp [matchClass, hbang, hcaret, classLoop_of_items h]

/-- **`do_match` decides the language of the tokens.**

**Proof sketch.** Induction on the length of the pattern. Behind a run of stars the pattern is
empty or begins with a token for one character, so that the empty suffix, which the loop leaves
out, is never in its language. -/
theorem doMatch_iff (fold : Bool) {p : List UInt8} {ts : List Token}
    (h : Tokens codeMarks noescape p ts) (s : List UInt8) :
    doMatch noescape fold p s = true ↔ Language fold ts s := by
  induction hn : p.length using Nat.strong_induction_on generalizing p ts s with
  | _ n ih =>
    subst hn
    have hone : ∀ {b : UInt8} {p rest : List UInt8} {t : Token} {ts : List Token},
        b ≠ byte '*' → t ≠ .star → Tokens codeMarks noescape rest ts →
        (∀ c s, doMatch noescape fold (b :: p) (c :: s) = true ↔
          t.Admits fold c ∧ doMatch noescape fold rest s = true) →
        (∀ s, doMatch noescape fold rest s = true ↔ Language fold ts s) →
        ∀ s, doMatch noescape fold (b :: p) s = true ↔ Language fold (t :: ts) s := by
      intro b p rest t ts hb ht _ hstep hrest s
      rw [language_cons ht]
      cases s with
      | nil => rw [doMatch, if_neg hb]; simp
      | cons c s => simp [hstep, hrest]
    cases h with
    | nil => cases s <;> simp [doMatch, Language]
    | @star p ts h =>
      obtain ⟨ts', htokens, hhead, hlang⟩ := h.dropStars fold
      have hlen : (p.dropWhile (· = byte '*')).length < (byte '*' :: p).length :=
        Nat.lt_succ_of_le (List.dropWhile_sublist _).length_le
      have hrest := fun s => ih _ hlen htokens s rfl
      rw [doMatch.eq_def]
      dsimp only
      rw [if_pos rfl, hlang]
      split_ifs with hend
      · rw [hend] at htokens
        cases htokens
        exact iff_of_true rfl ⟨s, [], (List.append_nil s).symm, rfl⟩
      · rw [anySuffix_iff]
        constructor
        · rintro ⟨u, v, rfl, -, hv⟩
          exact ⟨u, v, rfl, (hrest v).mp hv⟩
        · rintro ⟨u, v, rfl, hv⟩
          refine ⟨u, v, rfl, ?_, (hrest v).mpr hv⟩
          rintro rfl
          cases ts' with
          | nil =>
            generalize p.dropWhile (· = byte '*') = q at htokens hend
            cases htokens
            exact hend rfl
          | cons t ts' =>
            rw [language_cons (by simpa using hhead)] at hv
            obtain ⟨c, v, heq, -⟩ := hv
            cases heq
    | @any p ts h =>
      refine hone (by decide) (by simp) h ?_ (fun s => ih _ (Nat.lt_succ_self _) h s rfl) s
      intro c s
      rw [doMatch, if_neg (by decide)]
      simp [Token.Admits]
    | @negated m p rest items ts hm hitems h =>
      have hlen : rest.length < (byte '[' :: m :: p).length := by
        have hle := length_matchClass_le fold (m :: p) 0
        rw [(matchClass_negated hm hitems fold 0).1] at hle
        exact Nat.lt_succ_of_le hle
      refine hone (by decide) (by simp) h ?_ (fun s => ih _ hlen h s rfl) s
      intro c s
      obtain ⟨hrest, hadmits⟩ := matchClass_negated hm hitems fold c
      rw [doMatch, if_neg (by decide), ← hadmits]
      simp [hrest, show byte '[' ≠ byte '?' by decide]
    | @listed p rest items ts hp hitems h =>
      have hlen : rest.length < (byte '[' :: p).length := by
        have hle := length_matchClass_le fold p 0
        rw [(matchClass_listed hp hitems fold 0).1] at hle
        exact Nat.lt_succ_of_le hle
      refine hone (by decide) (by simp) h ?_ (fun s => ih _ hlen h s rfl) s
      intro c s
      obtain ⟨hrest, hadmits⟩ := matchClass_listed hp hitems fold c
      rw [doMatch, if_neg (by decide), ← hadmits]
      simp [hrest, show byte '[' ≠ byte '?' by decide]
    | @quoted d p ts hescape h =>
      have hlen : p.length < (byte '\\' :: d :: p).length :=
        Nat.lt_succ_of_lt (Nat.lt_succ_self _)
      refine hone (by decide) (by simp) h ?_ (fun s => ih _ hlen h s rfl) s
      intro c s
      rw [doMatch, if_neg (by decide), Token.Admits, ← foldCase_eq_iff]
      simp [unquote, hescape, show byte '\\' ≠ byte '?' by decide,
        show byte '\\' ≠ byte '[' by decide]
    | @char b p ts hb hescape h =>
      have hspecial : b ≠ byte '*' ∧ b ≠ byte '?' ∧ b ≠ byte '[' := by
        simpa [ascii] using hb
      obtain ⟨hstar, hany, hbracket⟩ := hspecial
      have hunquote : unquote noescape b p = (b, p) := by
        cases p with
        | nil => rfl
        | cons d p =>
          rw [unquote, if_neg]
          rintro ⟨hfalse, hslash⟩
          simpa [hfalse] using hescape hslash
      refine hone hstar (by simp) h ?_ (fun s => ih _ (Nat.lt_succ_self _) h s rfl) s
      intro c s
      rw [doMatch, if_neg hstar, Token.Admits, ← foldCase_eq_iff]
      simp [hany, hbracket, hunquote]

/-! ## `fnmatch` -/

/-- **`fnmatch` decides the language of a pattern** whose bracket expressions are closed. -/
theorem fnmatch_iff (flags : ℕ) {pattern : CString} {ts : List Token}
    (h : Tokens codeMarks (flags &&& FNM_NOESCAPE ≠ 0) pattern.bytes ts) (string : CString) :
    fnmatch pattern string flags = 0 ↔
      Language (flags &&& FNM_CASEFOLD ≠ 0) ts string.bytes := by
  rw [← doMatch_iff _ h, fnmatch]
  split_ifs with hmatch
  · exact iff_of_true rfl hmatch
  · exact iff_of_false (by decide) hmatch

/-- The items of `a]`. -/
lemma items_a : Items true [byte 'a', byte ']'] [(byte 'a', byte 'a')] [] :=
  .single (by decide) (by simp [byte]) .close

/-- A `*` in front of a negated bracket expression. -/
theorem fnmatch_iff_negated : fnmatch (.ofBytes (ascii "*[^a]")) (.ofBytes (ascii "xb")) 0 = 0 ↔
    Language false [.star, .bracket true [(byte 'a', byte 'a')]] (ascii "xb") :=
  @fnmatch_iff 0 (.ofBytes (ascii "*[^a]")) _ (.star (.negated (by decide) items_a .nil))
    (.ofBytes (ascii "xb"))

/-- **`^` negates too**: `[^a]` does not list `^` and `a`. And the ends of a range are folded:
`[0-_]` does not take the `A` that lies in it. -/
theorem not_fnmatch_iff : (¬∀ (flags : ℕ) (pattern : CString) (ts : List Token),
    Tokens [byte '!'] (flags &&& FNM_NOESCAPE ≠ 0) pattern.bytes ts → ∀ string : CString,
      fnmatch pattern string flags = 0 ↔
        Language (flags &&& FNM_CASEFOLD ≠ 0) ts string.bytes) ∧
    byte '0' ≤ byte 'A' ∧ byte 'A' ≤ byte '_' ∧
      fnmatch (.ofBytes (ascii "[0-_]")) (.ofBytes (ascii "A")) FNM_CASEFOLD = FNM_NOMATCH := by
  refine ⟨fun h => ?_, by decide, by decide, ?_⟩
  · have hitems : Items true [byte '^', byte 'a', byte ']']
        [(byte '^', byte '^'), (byte 'a', byte 'a')] [] :=
      .single (by decide) (by simp [byte]) (.single (by decide) (by simp [byte]) .close)
    have htokens : Tokens [byte '!'] false (ascii "[^a]")
        [.bracket false [(byte '^', byte '^'), (byte 'a', byte 'a')]] :=
      .listed (by decide) hitems .nil
    have hiff := h 0 (.ofBytes (ascii "[^a]")) _ htokens (.ofBytes (ascii "b"))
    have hmatch : fnmatch (.ofBytes (ascii "[^a]")) (.ofBytes (ascii "b")) 0 = 0 := by
      rw [fnmatch, if_pos]
      apply (doMatch_iff false (.negated (by decide) items_a .nil) (ascii "b")).mpr
      refine ⟨byte 'b', [], rfl, ?_, rfl⟩
      rw [Token.Admits, ← any_inRange_iff]
      decide
    obtain ⟨c, v, heq, hadmits, -⟩ := hiff.mp hmatch
    cases heq
    rw [Token.Admits, ← any_inRange_iff] at hadmits
    exact absurd hadmits (by decide)
  · rw [fnmatch, if_neg]
    decide +kernel

end Asteros.Libc
