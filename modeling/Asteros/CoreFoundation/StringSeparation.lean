import Asteros.CoreFoundation.StringObject
import Asteros.Lib.Occurrence

set_option autoImplicit false

/-!
# Separating and combining strings

`CFStringCreateArrayBySeparatingStrings` cuts a string at a separator, which it looks for byte by
byte from the left; behind a separator it goes on. `CFStringCreateByCombiningStrings` puts an array of
strings together again.

## Main definitions

* `cfStringCreateArrayBySeparatingStrings`, `cfStringCreateByCombiningStrings` — the functions.

## Main results

* `combine_separate` — the pieces combine to the string, none has the separator in it, and there is
  one more of them than leftmost separators.
-/

namespace Asteros.CoreFoundation

open ByteMemory Occurrence

variable (memory : ℕ → UInt8)

/-- A piece of a string. -/
def stringPiece (s : CFString) (start stop : ℕ) : CFString :=
  stringCreateFromBytes memory (load s.buffer start (stop - start))

/-- The loop of `CFStringCreateArrayBySeparatingStrings` and the last piece. -/
def separateLoop (s sep : CFString) (hsep : 0 < sep.byteLength) (start off : ℕ) : List CFString :=
  if off + sep.byteLength ≤ s.byteLength then
    if load s.buffer off sep.byteLength = sep.bytes then
      stringPiece memory s start off ::
        separateLoop s sep hsep (off + sep.byteLength) (off + sep.byteLength)
    else separateLoop s sep hsep start (off + 1)
  else [stringPiece memory s start s.byteLength]
termination_by s.byteLength - off

/-- `CFStringCreateArrayBySeparatingStrings`. -/
def cfStringCreateArrayBySeparatingStrings (theString separatorString : CFString) : List CFString :=
  if h : separatorString.byteLength = 0 ∨ separatorString.byteLength > theString.byteLength then
    [theString]
  else separateLoop memory theString separatorString (by omega) 0 0

/-- The loop of `CFStringCreateByCombiningStrings`. -/
def combineLoop (separatorString : CFString) : ℕ → List CFString → CFString → Option CFString
  | _, [], result => some result
  | i, s :: rest, result => do
    let result ← if i > 0 then cfStringAppend result separatorString else some result
    let result ← cfStringAppend result s
    combineLoop separatorString (i + 1) rest result

/-- `CFStringCreateByCombiningStrings`. -/
def cfStringCreateByCombiningStrings (theArray : List CFString) (separatorString : CFString) :
    Option CFString :=
  combineLoop separatorString 0 theArray (cfStringCreateMutable memory 0)

variable {s sep result : CFString} {bs sp held : List UInt8} {pieces : List CFString}

/-! ## Separating -/

/-- The bytes that are compared are those of the separator exactly if it occurs there. -/
lemma load_eq_sep_iff (hs : s.Holds bs) (hsep : sep.Holds sp) {off : ℕ}
    (hoff : off + sep.byteLength ≤ s.byteLength) :
    load s.buffer off sep.byteLength = sep.bytes ↔ OccursAt sp bs off := by
  rw [hsep.bytes, hsep.byteLength] at *
  rw [hs.byteLength] at hoff
  rw [hs.load_eq hoff, OccursAt, List.prefix_iff_eq_take, eq_comm]

/-- A piece holds its part of the bytes. -/
lemma holds_stringPiece (hs : s.Holds bs) {start stop : ℕ} (hle : start ≤ stop)
    (hstop : stop ≤ bs.length) :
    (stringPiece memory s start stop).Holds ((bs.drop start).take (stop - start)) := by
  unfold stringPiece
  rw [hs.load_eq (by omega)]
  exact holds_stringCreateFromBytes memory _

/-- Where no separator starts, there is none inside. -/
lemma not_infix_of_scanned {start stop : ℕ} (hsp : sp ≠ [])
    (hscan : ∀ i, start ≤ i → i < stop → ¬OccursAt sp bs i) :
    ¬sp <:+: (bs.drop start).take (stop - start) := by
  intro hinfix
  obtain ⟨i, hi⟩ := exists_occursAt hinfix
  have hroom := hi.le hsp
  have hpos := List.length_pos_iff.mpr hsp
  rw [List.length_take] at hroom
  apply hscan (start + i) (by omega) (by omega)
  unfold OccursAt at hi ⊢
  rw [← List.drop_drop]
  exact hi.trans ((List.take_prefix _ _).drop i)

/-- **The loop of `CFStringCreateArrayBySeparatingStrings`.** No separator starts between the start of
the piece and the place where the loop is.

**Proof sketch.** Induction on the calls of the loop. A place where no separator starts is added to
those that were passed; at a separator the piece ends, and behind it the next one begins. -/
lemma separateLoop_spec (hs : s.Holds bs) (hsep : sep.Holds sp) (hpos : 0 < sep.byteLength)
    {start off : ℕ} (hle : start ≤ off) (hstart : start ≤ bs.length)
    (hscan : ∀ i, start ≤ i → i < off → ¬OccursAt sp bs i) :
    (∀ piece ∈ separateLoop memory s sep hpos start off,
      ∃ b, piece.Holds b ∧ ¬sp <:+: b) ∧
    sp.intercalate ((separateLoop memory s sep hpos start off).map CFString.bytes) =
      bs.drop start ∧
    ∃ places, Leftmost sp bs start places ∧
      (separateLoop memory s sep hpos start off).length = places.length + 1 := by
  have hlen := hs.byteLength
  have hlen' := hsep.byteLength
  have hne : sp ≠ [] := List.length_pos_iff.mp (hlen' ▸ hpos)
  induction start, off using separateLoop.induct s sep hpos with
  | case1 start off hoff heq ih =>
    have hat := (load_eq_sep_iff hs hsep hoff).mp heq
    obtain ⟨hpieces, hbytes, places, hleftmost, hcount⟩ := ih (le_refl _) (by omega)
      fun i hi hi' => absurd hi' (Nat.not_lt_of_le hi)
    have hpiece := holds_stringPiece memory hs hle (by omega)
    rw [separateLoop, if_pos hoff, if_pos heq]
    refine ⟨?_, ?_, off :: places, ?_, ?_⟩
    · intro piece hmem
      obtain rfl | hmem := List.mem_cons.mp hmem
      · exact ⟨_, hpiece, not_infix_of_scanned hne hscan⟩
      · exact hpieces piece hmem
    · have hmore : (separateLoop memory s sep hpos (off + sep.byteLength)
          (off + sep.byteLength)).map CFString.bytes ≠ [] := by
        intro hnil
        rw [List.map_eq_nil_iff.mp hnil] at hcount
        cases hcount
      obtain ⟨rest, hrest⟩ := hat
      have hbehind : bs.drop (off + sep.byteLength) = rest := by
        rw [← List.drop_drop, ← hrest, hlen', List.drop_left]
      rw [List.map_cons, List.intercalate_cons_of_ne_nil hmore, hbytes, hpiece.bytes, hbehind,
        List.append_assoc, hrest, show off = start + (off - start) by omega, ← List.drop_drop,
        Nat.add_sub_cancel_left, List.take_append_drop]
    · rw [hlen'] at hleftmost
      exact .next hle hat hscan hleftmost
    · rw [List.length_cons, hcount, List.length_cons]
  | case2 start off hoff hneq ih =>
    rw [separateLoop, if_pos hoff, if_neg hneq]
    apply ih (by omega) hstart
    intro i hi hi'
    obtain rfl | hlt := Nat.eq_or_lt_of_le (Nat.le_of_lt_succ hi')
    · exact fun hat => hneq ((load_eq_sep_iff hs hsep hoff).mpr hat)
    · exact hscan i hi hlt
  | case3 start off hoff =>
    have hnone : ∀ i, start ≤ i → ¬OccursAt sp bs i := by
      intro i hi hat
      have hroom := hat.le hne
      exact hscan i hi (by omega) hat
    have hpiece : (stringPiece memory s start s.byteLength).Holds
        ((bs.drop start).take (s.byteLength - start)) :=
      holds_stringPiece memory hs (by omega) (by omega)
    have hwhole : (bs.drop start).take (s.byteLength - start) = bs.drop start := by
      rw [List.take_of_length_le]
      rw [List.length_drop]
      omega
    rw [separateLoop, if_neg hoff]
    refine ⟨?_, ?_, [], .none hnone, rfl⟩
    · intro piece hmem
      obtain rfl := List.mem_singleton.mp hmem
      exact ⟨_, hpiece, not_infix_of_scanned hne fun i hi _ => hnone i hi⟩
    · rw [List.map_singleton, List.intercalate_singleton, hpiece.bytes, hwhole]

/-- `CFStringCreateArrayBySeparatingStrings`, also for a separator that is too long. -/
lemma cfStringCreateArrayBySeparatingStrings_spec (hs : s.Holds bs) (hsep : sep.Holds sp)
    (hne : sp ≠ []) :
    (∀ piece ∈ cfStringCreateArrayBySeparatingStrings memory s sep,
      ∃ b, piece.Holds b ∧ ¬sp <:+: b) ∧
    sp.intercalate ((cfStringCreateArrayBySeparatingStrings memory s sep).map CFString.bytes) = bs ∧
    ∃ places, Leftmost sp bs 0 places ∧
      (cfStringCreateArrayBySeparatingStrings memory s sep).length = places.length + 1 := by
  have hlen := hs.byteLength
  have hlen' := hsep.byteLength
  have hpos := List.length_pos_iff.mpr hne
  unfold cfStringCreateArrayBySeparatingStrings
  split_ifs with hshort
  · have hnone : ∀ i, ¬OccursAt sp bs i := by
      intro i hat
      have hroom := hat.le hne
      omega
    refine ⟨?_, ?_, [], .none fun i _ => hnone i, rfl⟩
    · intro piece hmem
      obtain rfl := List.mem_singleton.mp hmem
      refine ⟨bs, hs, fun hinfix => ?_⟩
      obtain ⟨i, hi⟩ := exists_occursAt hinfix
      exact hnone i hi
    · rw [List.map_singleton, List.intercalate_singleton, hs.bytes]
  · have hloop := separateLoop_spec memory hs hsep (by omega) (le_refl 0)
      (Nat.zero_le _) fun i _ hi => absurd hi (Nat.not_lt_zero i)
    rw [List.drop_zero] at hloop
    exact hloop

/-! ## Combining -/

/-- An append to a string without a bound. -/
lemma cfStringAppend_unbounded (h : result.Holds held) (hmax : result.maxLength = 0)
    (hs : s.Holds bs) :
    ∃ result', cfStringAppend result s = some result' ∧ result'.maxLength = 0 ∧
      result'.Holds (held ++ bs) := by
  obtain ⟨result', happend, hmax', hholds⟩ := stringAppendBytes_spec h s.bytes
  rw [accepted, hmax, if_neg (by omega), hs.bytes] at hholds
  exact ⟨result', happend, hmax'.trans hmax, hholds⟩

/-- **The loop of `CFStringCreateByCombiningStrings`** behind the first string: each is appended
behind a separator. -/
lemma combineLoop_spec (hsep : sep.Holds sp) (hpieces : ∀ piece ∈ pieces, ∃ b, piece.Holds b)
    (i : ℕ) (h : result.Holds held) (hmax : result.maxLength = 0) :
    ∃ result', combineLoop sep (i + 1) pieces result = some result' ∧
      result'.Holds (held ++ pieces.flatMap fun piece => sp ++ piece.bytes) := by
  induction pieces generalizing i result held with
  | nil => exact ⟨result, rfl, by simpa using h⟩
  | cons piece pieces ih =>
    obtain ⟨b, hb⟩ := hpieces piece List.mem_cons_self
    obtain ⟨r, hr, hrmax, hrholds⟩ := cfStringAppend_unbounded h hmax hsep
    obtain ⟨r', hr', hrmax', hrholds'⟩ := cfStringAppend_unbounded hrholds hrmax hb
    obtain ⟨r'', hr'', hrholds''⟩ := ih (fun x hx => hpieces x (List.mem_cons_of_mem _ hx)) (i + 1)
      hrholds' hrmax'
    refine ⟨r'', ?_, ?_⟩
    · simp only [combineLoop, if_pos (Nat.succ_pos i), hr, Option.bind_eq_bind, Option.bind_some, hr']
      exact hr''
    · rw [List.flatMap_cons, hb.bytes]
      simpa using hrholds''

/-- The strings of an array with a separator between them. -/
lemma intercalate_cons_eq (sp x : List UInt8) (xs : List (List UInt8)) :
    sp.intercalate (x :: xs) = x ++ xs.flatMap (sp ++ ·) := by
  induction xs generalizing x with
  | nil => simp
  | cons y ys ih => rw [List.intercalate_cons_cons, ih, List.flatMap_cons]; simp

/-- `CFStringCreateByCombiningStrings`. -/
lemma cfStringCreateByCombiningStrings_spec (hsep : sep.Holds sp)
    (hpieces : ∀ piece ∈ pieces, ∃ b, piece.Holds b) :
    ∃ result, cfStringCreateByCombiningStrings memory pieces sep = some result ∧
      result.Holds (sp.intercalate (pieces.map CFString.bytes)) := by
  unfold cfStringCreateByCombiningStrings
  have hnew := holds_cfStringCreateMutable memory 0
  cases pieces with
  | nil => exact ⟨_, rfl, hnew⟩
  | cons piece pieces =>
    obtain ⟨b, hb⟩ := hpieces piece List.mem_cons_self
    obtain ⟨r, hr, hrmax, hrholds⟩ := cfStringAppend_unbounded hnew rfl hb
    obtain ⟨r', hr', hrholds'⟩ := combineLoop_spec hsep
      (fun x hx => hpieces x (List.mem_cons_of_mem _ hx)) 0 hrholds hrmax
    refine ⟨r', ?_, ?_⟩
    · simp only [combineLoop, if_neg (Nat.lt_irrefl 0), Option.bind_eq_bind, Option.bind_some, hr]
      exact hr'
    · rw [List.map_cons, intercalate_cons_eq, hb.bytes, List.flatMap_map]
      simpa using hrholds'

/-- **Separating and combining are inverse.** For every string and every separator that is not empty,
the pieces combine to the bytes of the string, no piece has the separator in it, and there is one
more of them than leftmost separators that do not overlap. -/
theorem combine_separate (memory : ℕ → UInt8) {s sep : CFString} {bs sp : List UInt8}
    (hs : s.Holds bs) (hsep : sep.Holds sp) (hne : sp ≠ []) :
    (∃ joined, cfStringCreateByCombiningStrings memory
        (cfStringCreateArrayBySeparatingStrings memory s sep) sep = some joined ∧
      joined.bytes = s.bytes) ∧
    (∀ piece ∈ cfStringCreateArrayBySeparatingStrings memory s sep,
      ¬sep.bytes <:+: piece.bytes) ∧
    ∃ places, Leftmost sep.bytes s.bytes 0 places ∧
      (∀ places', Leftmost sep.bytes s.bytes 0 places' → places' = places) ∧
      (cfStringCreateArrayBySeparatingStrings memory s sep).length = places.length + 1 := by
  obtain ⟨hpieces, hbytes, places, hleftmost, hcount⟩ :=
    cfStringCreateArrayBySeparatingStrings_spec memory hs hsep hne
  obtain ⟨joined, hjoined, hholds⟩ := cfStringCreateByCombiningStrings_spec memory hsep
    fun piece hmem => (hpieces piece hmem).imp fun _ h => h.1
  rw [hs.bytes, hsep.bytes]
  refine ⟨⟨joined, hjoined, hholds.bytes.trans hbytes⟩, ?_, places, hleftmost,
    fun _ h => h.unique hleftmost, hcount⟩
  intro piece hmem
  obtain ⟨b, hb, hnot⟩ := hpieces piece hmem
  rw [hb.bytes]
  exact hnot

/-- A string of bytes. -/
def byteString (bs : List UInt8) : CFString := stringCreateFromBytes (fun _ => 0) bs

/-- The string `-a---` with the separator `--`: the pieces are `-a` and `-`. -/
theorem combine_separate_dashes :
    (∃ joined, cfStringCreateByCombiningStrings (fun _ => 7)
        (cfStringCreateArrayBySeparatingStrings (fun _ => 7) (byteString [45, 97, 45, 45, 45])
          (byteString [45, 45])) (byteString [45, 45]) = some joined ∧
      joined.bytes = (byteString [45, 97, 45, 45, 45]).bytes) ∧
    (∀ piece ∈ cfStringCreateArrayBySeparatingStrings (fun _ => 7)
        (byteString [45, 97, 45, 45, 45]) (byteString [45, 45]),
      ¬(byteString [45, 45]).bytes <:+: piece.bytes) ∧
    ∃ places, Leftmost (byteString [45, 45]).bytes (byteString [45, 97, 45, 45, 45]).bytes 0 places ∧
      (∀ places', Leftmost (byteString [45, 45]).bytes (byteString [45, 97, 45, 45, 45]).bytes 0
        places' → places' = places) ∧
      (cfStringCreateArrayBySeparatingStrings (fun _ => 7) (byteString [45, 97, 45, 45, 45])
        (byteString [45, 45])).length = places.length + 1 :=
  combine_separate (fun _ => 7) (holds_stringCreateFromBytes _ _) (holds_stringCreateFromBytes _ _)
    (by decide)

end Asteros.CoreFoundation
