import Asteros.CoreFoundation.StringObject
import Asteros.Lib.Occurrence

set_option autoImplicit false

/-!
# Searching a string

`CFStringFindWithOptions` searches for bytes and then counts characters up to the place where it has
found them; `CFStringCreateWithSubstring` counts characters and copies bytes.

## Main definitions

* `cfStringFindWithOptions`, `cfStringCreateWithSubstring` — the functions.

## Main results

* `find_substring` — the search finds the leftmost occurrence in characters, and the substring there
  is what was searched for.
-/

namespace Asteros.CoreFoundation

open ByteMemory Utf8 Occurrence

/-! ## The functions -/

/-- `CFRange`. -/
structure CFRange where
  /-- `location`. -/
  location : ℕ
  /-- `length`. -/
  length : ℕ

/-- The loop that counts the characters from `o` to the place `stop`, and the place where it ends. -/
def countChars (s : CFString) (stop o : ℕ) : ℕ × ℕ :=
  if o < stop then
    let (count, o) := countChars s stop (o + s.consumed o)
    (count + 1, o)
  else (0, o)
termination_by stop - o
decreasing_by
  have := s.consumed_pos o
  omega

/-- The loop of `CFStringFindWithOptions`. -/
def findLoop (a b : CFString) (off : ℕ) : Option CFRange :=
  if off + b.byteLength ≤ a.byteLength then
    if load a.buffer off b.byteLength ≠ b.bytes then findLoop a b (off + 1)
    else
      let (startChar, o) := countChars a off 0
      let (lenChar, _) := countChars a (off + b.byteLength) o
      some ⟨startChar, lenChar⟩
  else none
termination_by a.byteLength + 1 - off

/-- `CFStringFindWithOptions`; `none` is `false`. -/
def cfStringFindWithOptions (theString stringToFind : CFString) : Option CFRange :=
  if stringToFind.byteLength = 0 ∨ stringToFind.byteLength > theString.byteLength then none
  else findLoop theString stringToFind 0

/-- The loop that skips so many characters. -/
def skipChars (s : CFString) : ℕ → ℕ → ℕ
  | 0, o => o
  | n + 1, o => skipChars s n (o + s.consumed o)

/-- `CFStringCreateWithSubstring`, with what is in the memory that `malloc` gives. -/
def cfStringCreateWithSubstring (memory : ℕ → UInt8) (str : CFString) (range : CFRange) : CFString :=
  let byteStart := skipChars str range.location 0
  let o := skipChars str range.length byteStart
  stringCreateFromBytes memory (load str.buffer byteStart (o - byteStart))

variable {s t : CFString} {cs ts : List Char}

/-! ## Counting and skipping -/

/-- The loop counts the characters between two places. -/
lemma countChars_spec (before middle behind : List Char)
    (h : s.Holds (encode (before ++ middle ++ behind))) :
    countChars s (encode (before ++ middle)).length (encode before).length =
      (middle.length, (encode (before ++ middle)).length) := by
  induction middle generalizing before with
  | nil =>
    rw [countChars, List.append_nil, if_neg (Nat.lt_irrefl _), List.length_nil]
  | cons c middle ih =>
    have hnext : s.Holds (encode ((before ++ [c]) ++ middle ++ behind)) := by simpa using h
    have hthis : s.Holds (encode (before ++ c :: (middle ++ behind))) := by simpa using h
    have hlt : (encode before).length < (encode (before ++ c :: middle)).length := by
      have hpos := encodeChar_pos c
      simp only [encode_append, encode_cons, List.length_append]
      omega
    have hmiddle : before ++ c :: middle = (before ++ [c]) ++ middle := by simp
    rw [countChars, if_pos hlt, consumed_spec hthis, boundary_next, hmiddle, ih _ hnext]
    rfl

/-- The loop skips so many characters, if they are there. -/
lemma skipChars_spec (before middle behind : List Char)
    (h : s.Holds (encode (before ++ middle ++ behind))) :
    skipChars s middle.length (encode before).length = (encode (before ++ middle)).length := by
  induction middle generalizing before with
  | nil => rw [List.append_nil, List.length_nil, skipChars]
  | cons c middle ih =>
    have hnext : s.Holds (encode ((before ++ [c]) ++ middle ++ behind)) := by simpa using h
    have hthis : s.Holds (encode (before ++ c :: (middle ++ behind))) := by simpa using h
    rw [List.length_cons, skipChars, consumed_spec hthis, boundary_next, ih _ hnext]
    simp

/-- **A substring** holds the characters of its range. -/
lemma substring_spec (memory : ℕ → UInt8) (before middle behind : List Char)
    (h : s.Holds (encode (before ++ middle ++ behind))) :
    (cfStringCreateWithSubstring memory s ⟨before.length, middle.length⟩).Holds (encode middle) := by
  have hstart : skipChars s before.length 0 = (encode before).length :=
    skipChars_spec [] before (middle ++ behind) (by simpa using h)
  have hend := skipChars_spec _ _ _ h
  have hlen : (encode (before ++ middle)).length - (encode before).length =
      (encode middle).length := by
    rw [encode_append, List.length_append, Nat.add_sub_cancel_left]
  have hload : load s.buffer (encode before).length (encode middle).length = encode middle := by
    rw [h.load_eq (by simp), encode_append, encode_append, List.append_assoc, List.drop_left,
      List.take_left]
  unfold cfStringCreateWithSubstring
  dsimp only
  rw [hstart, hend, hlen, hload]
  exact holds_stringCreateFromBytes memory _

/-! ## Searching -/

/-- The bytes that are compared are those of the other string exactly if its characters occur at a
place between characters. -/
lemma load_eq_iff (hs : s.Holds (encode cs)) (ht : t.Holds (encode ts)) (hts : ts ≠ []) {off : ℕ}
    (hoff : off + t.byteLength ≤ s.byteLength) :
    load s.buffer off t.byteLength = t.bytes ↔
      ∃ front back, cs = front ++ ts ++ back ∧ (encode front).length = off := by
  rw [ht.bytes, ht.byteLength] at *
  rw [hs.byteLength] at hoff
  rw [hs.load_eq hoff]
  constructor
  · intro heq
    apply exists_of_encode_prefix_drop hts
    rw [← heq]
    exact List.take_prefix _ _
  · rintro ⟨front, back, rfl, rfl⟩
    rw [encode_append, encode_append, List.append_assoc, List.drop_left, List.take_left]

/-- **The loop of `CFStringFindWithOptions`**: nothing occurs before the place where it is, and it
finds the first occurrence behind.

**Proof sketch.** Induction on the calls of the loop. A place where the bytes are those of the other
string is one between characters, and then the two counts are those of the characters before and of
the other string. -/
lemma findLoop_spec (hs : s.Holds (encode cs)) (ht : t.Holds (encode ts)) (hts : ts ≠ []) (off : ℕ)
    (hbefore : ∀ front back, cs = front ++ ts ++ back → off ≤ (encode front).length) :
    (∀ r, findLoop s t off = some r → r.length = ts.length ∧ IsLeftmost ts cs r.location) ∧
    (findLoop s t off = none → ¬ts <:+: cs) := by
  induction off using findLoop.induct s t with
  | case1 off hoff hne ih =>
    rw [findLoop, if_pos hoff, if_pos hne]
    apply ih
    intro front back hcs
    obtain heq | hlt := Nat.eq_or_lt_of_le (hbefore front back hcs)
    · exact absurd ((load_eq_iff hs ht hts hoff).mpr ⟨front, back, hcs, heq.symm⟩) hne
    · exact hlt
  | case2 off hoff heq startChar o hstart lenChar o' hlength =>
    obtain ⟨front, back, hcs, hlen⟩ := (load_eq_iff hs ht hts hoff).mp (not_not.mp heq)
    have hfront : countChars s off 0 = (front.length, off) := by
      have hcount := countChars_spec (s := s) [] front (ts ++ back)
        (by rw [hcs] at hs; simpa using hs)
      rw [← hlen]
      exact hcount
    have hfound : countChars s (off + t.byteLength) off = (ts.length, off + t.byteLength) := by
      have hcount := countChars_spec front ts back (hcs ▸ hs)
      rw [encode_append, List.length_append, hlen, ← ht.byteLength] at hcount
      exact hcount
    rw [findLoop, if_pos hoff, if_neg heq, hfront]
    dsimp only
    rw [hfound]
    refine ⟨?_, fun h => absurd h (by simp)⟩
    intro r hr
    obtain rfl := Option.some.inj hr
    refine ⟨rfl, ⟨back, by rw [hcs, List.append_assoc, List.drop_left]⟩, ?_⟩
    -- an occurrence further left would be one at an earlier byte
    intro j hj hat
    obtain ⟨rest, hrest⟩ := hat
    have hsplit : cs = cs.take j ++ ts ++ rest := by
      rw [List.append_assoc, hrest, List.take_append_drop]
    have hle := hbefore _ _ hsplit
    have htake : cs.take j = front.take j := by
      dsimp only at hj
      rw [hcs, List.append_assoc, List.take_append_of_le_length hj.le]
    have hdrop : 0 < (encode (front.drop j)).length := by
      have hcount := length_le_encode (front.drop j)
      dsimp only at hj
      rw [List.length_drop] at hcount
      omega
    have hwhole : (encode front).length =
        (encode (front.take j)).length + (encode (front.drop j)).length := by
      rw [← List.length_append, ← encode_append, List.take_append_drop]
    rw [htake] at hle
    omega
  | case3 off hoff =>
    rw [findLoop, if_neg hoff]
    refine ⟨fun r hr => absurd hr (by simp), fun _ hinfix => ?_⟩
    obtain ⟨front, back, hcs⟩ := hinfix
    have hle := hbefore front back hcs.symm
    have hlen := congrArg (fun cs => (encode cs).length) hcs
    simp only [encode_append, List.length_append] at hlen
    rw [hs.byteLength, ht.byteLength] at hoff
    omega

/-- `CFStringFindWithOptions` on valid UTF-8. -/
lemma cfStringFindWithOptions_spec (hs : s.Holds (encode cs)) (ht : t.Holds (encode ts))
    (hts : ts ≠ []) :
    (∀ r, cfStringFindWithOptions s t = some r →
      r.length = ts.length ∧ IsLeftmost ts cs r.location) ∧
    (cfStringFindWithOptions s t = none → ¬ts <:+: cs) := by
  unfold cfStringFindWithOptions
  split_ifs with hshort
  · refine ⟨fun r hr => absurd hr (by simp), fun _ hinfix => ?_⟩
    obtain ⟨front, back, rfl⟩ := hinfix
    have hpos := length_le_encode ts
    have hne := List.length_pos_iff.mpr hts
    rw [hs.byteLength, ht.byteLength, encode_append, encode_append, List.length_append,
      List.length_append] at hshort
    omega
  · exact findLoop_spec hs ht hts 0 fun _ _ _ => Nat.zero_le _

/-- **Search and substring agree.** For all strings of valid UTF-8 of which the second is not empty,
the search succeeds exactly if the characters of the second occur in the first; the range that it
finds is that of the leftmost occurrence, and the substring of that range has the bytes of the
second. And for every place in the first, the substrings before and behind it make up the first, and
their lengths that of the first. -/
theorem find_substring (memory : ℕ → UInt8) {s t : CFString} {cs ts : List Char}
    (hs : s.Holds (encode cs)) (ht : t.Holds (encode ts)) (hts : ts ≠ []) :
    ((cfStringFindWithOptions s t).isSome ↔ ts <:+: cs) ∧
    (∀ r, cfStringFindWithOptions s t = some r →
      r.length = ts.length ∧ IsLeftmost ts cs r.location ∧
        (cfStringCreateWithSubstring memory s r).bytes = t.bytes) ∧
    ∀ i ≤ s.getLength,
      (cfStringCreateWithSubstring memory s ⟨0, i⟩).bytes ++
        (cfStringCreateWithSubstring memory s ⟨i, s.getLength - i⟩).bytes = s.bytes ∧
      (cfStringCreateWithSubstring memory s ⟨0, i⟩).getLength +
        (cfStringCreateWithSubstring memory s ⟨i, s.getLength - i⟩).getLength = s.getLength := by
  obtain ⟨hsome, hnone⟩ := cfStringFindWithOptions_spec hs ht hts
  refine ⟨⟨fun h => ?_, fun h => ?_⟩, fun r hr => ?_, fun i hi => ?_⟩
  · obtain ⟨r, hr⟩ := Option.isSome_iff_exists.mp h
    exact (hsome r hr).2.1.isPart
  · by_contra hfound
    exact hnone (by simpa using hfound) h
  · obtain ⟨hlength, hleftmost⟩ := hsome r hr
    have hle := hleftmost.1.le hts
    obtain ⟨rest, hrest⟩ := hleftmost.1
    have hlocation : (cs.take r.location).length = r.location := by
      rw [List.length_take]
      omega
    have hsplit : cs = cs.take r.location ++ ts ++ rest := by
      rw [List.append_assoc, hrest, List.take_append_drop]
    rw [hsplit] at hs
    have hsub := (substring_spec memory _ _ _ hs).bytes
    rw [hlocation, ← hlength] at hsub
    exact ⟨hlength, hleftmost, hsub.trans ht.bytes.symm⟩
  · rw [getLength_spec hs] at hi ⊢
    have htake : (cs.take i).length = i := by
      rw [List.length_take]
      omega
    have hdrop : (cs.drop i).length = cs.length - i := List.length_drop
    have hfront := substring_spec (s := s) memory [] (cs.take i) (cs.drop i) (by simpa using hs)
    have hback := substring_spec (s := s) memory (cs.take i) (cs.drop i) [] (by simpa using hs)
    rw [List.length_nil, htake] at hfront
    rw [htake, hdrop] at hback
    rw [hfront.bytes, hback.bytes, getLength_spec hfront, getLength_spec hback, ← encode_append,
      List.take_append_drop, hs.bytes, htake, hdrop]
    exact ⟨rfl, by omega⟩

/-- A search for the last two of three characters, one of which has two bytes. -/
theorem find_substring_accent :
    ((cfStringFindWithOptions (stringOf ['a', 'é', 'b']) (stringOf ['é', 'b'])).isSome ↔
      ['é', 'b'] <:+: ['a', 'é', 'b']) ∧
    (∀ r, cfStringFindWithOptions (stringOf ['a', 'é', 'b']) (stringOf ['é', 'b']) = some r →
      r.length = ['é', 'b'].length ∧ IsLeftmost ['é', 'b'] ['a', 'é', 'b'] r.location ∧
        (cfStringCreateWithSubstring (fun _ => 7) (stringOf ['a', 'é', 'b']) r).bytes =
          (stringOf ['é', 'b']).bytes) ∧
    ∀ i ≤ (stringOf ['a', 'é', 'b']).getLength,
      (cfStringCreateWithSubstring (fun _ => 7) (stringOf ['a', 'é', 'b']) ⟨0, i⟩).bytes ++
        (cfStringCreateWithSubstring (fun _ => 7) (stringOf ['a', 'é', 'b'])
          ⟨i, (stringOf ['a', 'é', 'b']).getLength - i⟩).bytes = (stringOf ['a', 'é', 'b']).bytes ∧
      (cfStringCreateWithSubstring (fun _ => 7) (stringOf ['a', 'é', 'b']) ⟨0, i⟩).getLength +
        (cfStringCreateWithSubstring (fun _ => 7) (stringOf ['a', 'é', 'b'])
          ⟨i, (stringOf ['a', 'é', 'b']).getLength - i⟩).getLength =
        (stringOf ['a', 'é', 'b']).getLength :=
  find_substring (fun _ => 7) (holds_stringCreateFromBytes _ _) (holds_stringCreateFromBytes _ _)
    (by decide)

end Asteros.CoreFoundation
