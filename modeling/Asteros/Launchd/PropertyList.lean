import Asteros.Libc.Ascii
import Asteros.Lib.Reader
import Mathlib.Data.List.DropRight

set_option autoImplicit false

/-!
# launchd's property list parser

The parser for the property list of a daemon. It looks for the first `<dict>` of the file, compares
tags literally, and takes text up to the first occurrence of its closing tag. A value under a key
that it does not know is skipped, if it is made of the elements that `skip_value` knows.

A cursor is what is left of the C string, which no function passes. There is always memory for a
copy.

## Main definitions

* `skipWs`, `consume`, `textUntil` — the scanner.
* `skipValue` — a value that is not used.
* `plistParseDaemon` — the whole file.

## Main results

* `skipValue_eq` — there are enough levels.
* `readsTag_daemonItem` — what is read for a key does not depend on what follows.
-/

namespace Asteros.Launchd.PropertyList

open Libc Reader

/-! ## The scanner -/

/-- What is left of the text. -/
abbrev Cursor := List UInt8

/-- White space, as `skip_ws` has it. -/
def isWs (b : UInt8) : Bool := b == byte ' ' || b == byte '\t' || b == byte '\n' || b == byte '\r'

/-- `skip_ws`: white space and comments; an unterminated comment is left. -/
def skipWs (p : Cursor) : Cursor :=
  if (ascii "<!--").isPrefixOf (p.dropWhile isWs) then
    match _h : strstr (ascii "-->") (p.dropWhile isWs) with
    | none => p.dropWhile isWs
    | some (_, e) => skipWs (e.drop 3)
  else p.dropWhile isWs
termination_by p.length
decreasing_by
  obtain ⟨hcat, hneedle⟩ := strstr_append_eq _h
  have hdrop : (p.dropWhile isWs).length ≤ p.length := (List.dropWhile_sublist _).length_le
  have hlen := congrArg List.length hcat
  have hle := hneedle.length_le
  have hthree : (ascii "-->").length = 3 := rfl
  rw [List.length_append] at hlen
  rw [List.length_drop]
  omega

/-- `consume`, which skips white space also when it fails. -/
def consume (p : Cursor) (lit : List UInt8) : Bool × Cursor :=
  let p := skipWs p
  if lit.isPrefixOf p then (true, p.drop lit.length) else (false, p)

/-- `text_until`. -/
def textUntil (p : Cursor) (closeTag : List UInt8) : Option (List UInt8 × Cursor) :=
  (strstr closeTag p).map fun r => (r.1, r.2.drop closeTag.length)

/-- A chain of `if (consume(pp, tag))`: what is done behind the first tag that is there. -/
def choose {α : Type} :
    List (List UInt8 × (Cursor → Option (α × Cursor))) → Cursor → Option (α × Cursor)
  | [], _ => none
  | (tag, f) :: alternatives, p =>
    let (found, p) := consume p tag
    if found then f p else choose alternatives p

/-! ## The parser -/

/-- `parse_key`, into an array of 128 characters. -/
def parseKey : Cursor → Option (List UInt8 × Cursor) :=
  choose [(ascii "<key>", fun p => (textUntil p (ascii "</key>")).map fun r => (r.1.take 127, r.2))]

/-- `parse_string_value`. -/
def parseStringValue : Cursor → Option (List UInt8 × Cursor) :=
  choose [(ascii "<string>", fun p => textUntil p (ascii "</string>"))]

/-- `parse_bool_value`. -/
def parseBoolValue : Cursor → Option (Bool × Cursor) :=
  choose [(ascii "<true/>", fun p => some (true, p)), (ascii "<false/>", fun p => some (false, p))]

/-- A text up to its closing tag, which is not used. -/
def skipText (closeTag : List UInt8) (p : Cursor) : Option (Unit × Cursor) :=
  (textUntil p closeTag).map fun r => ((), r.2)

/-- The elements that `skip_value` knows, given what it does with those in a container. -/
def skipCases (skip : Cursor → Option (Unit × Cursor)) :
    List (List UInt8 × (Cursor → Option (Unit × Cursor))) :=
  [(ascii "<true/>", fun p => some ((), p)),
    (ascii "<false/>", fun p => some ((), p)),
    (ascii "<string>", skipText (ascii "</string>")),
    (ascii "<integer>", skipText (ascii "</integer>")),
    (ascii "<array>", run (consume · (ascii "</array>")) (fun _ => skip) ()),
    (ascii "<dict>", run (consume · (ascii "</dict>"))
      (fun _ p => (parseKey p).bind fun r => skip r.2) ())]

/-- `skip_value`, to so many levels. -/
def skipValue : ℕ → Cursor → Option (Unit × Cursor)
  | 0, _ => none
  | fuel + 1, p => choose (skipCases (skipValue fuel)) p

/-- `DAEMON_MAX_ARGS`. -/
def daemonMaxArgs : ℕ := 16

/-- `DAEMON_MAX_ENV`. -/
def daemonMaxEnv : ℕ := 16

/-- A string of an array. It is dropped if there is no room. -/
def stringItem (argv : List (List UInt8)) (p : Cursor) : Option (List (List UInt8) × Cursor) :=
  (parseStringValue p).map fun r =>
    (if argv.length < daemonMaxArgs then argv ++ [r.1] else argv, r.2)

/-- `parse_string_array`. -/
def parseStringArray : Cursor → Option (List (List UInt8) × Cursor) :=
  choose [(ascii "<array>", run (consume · (ascii "</array>")) stringItem [])]

/-- A variable of the environment. It is dropped if there is no room. -/
def envItem (envp : List (List UInt8)) (p : Cursor) : Option (List (List UInt8) × Cursor) :=
  (parseKey p).bind fun key => (parseStringValue key.2).map fun val =>
    (if envp.length < daemonMaxEnv then envp ++ [key.1 ++ byte '=' :: val.1] else envp, val.2)

/-- `parse_env_dict`. -/
def parseEnvDict (envp : List (List UInt8)) : Cursor → Option (List (List UInt8) × Cursor) :=
  choose [(ascii "<dict>", run (consume · (ascii "</dict>")) envItem envp)]

/-- `struct daemon_config`. -/
structure DaemonConfig where
  label : List UInt8
  argv : List (List UInt8)
  runAtLoad : Bool
  keepAlive : Bool
  envp : List (List UInt8)
  stdoutPath : List UInt8
  stderrPath : List UInt8
  deriving DecidableEq

/-- What `plist_parse_daemon` has read, with `have_label` and `have_args`. -/
structure State where
  cfg : DaemonConfig
  haveLabel : Bool
  haveArgs : Bool

/-- The state before the first key. -/
def State.start : State := ⟨⟨[], [], false, false, [], [], []⟩, false, false⟩

namespace State

variable (st : State)

/-- The label, in an array of 128 characters. -/
def setLabel (s : List UInt8) : State :=
  { st with cfg := { st.cfg with label := s.take 127 }, haveLabel := true }

/-- The arguments. -/
def setArgv (argv : List (List UInt8)) : State :=
  { st with cfg := { st.cfg with argv := argv }, haveArgs := decide (0 < argv.length) }

/-- The flag `run_at_load`. -/
def setRunAtLoad (b : Bool) : State := { st with cfg := { st.cfg with runAtLoad := b } }

/-- The flag `keep_alive`. -/
def setKeepAlive (b : Bool) : State := { st with cfg := { st.cfg with keepAlive := b } }

/-- The environment. -/
def setEnvp (envp : List (List UInt8)) : State := { st with cfg := { st.cfg with envp := envp } }

/-- The path for the output, in an array of 128 characters. -/
def setStdoutPath (s : List UInt8) : State :=
  { st with cfg := { st.cfg with stdoutPath := s.take 127 } }

/-- The path for errors, in an array of 128 characters. -/
def setStderrPath (s : List UInt8) : State :=
  { st with cfg := { st.cfg with stderrPath := s.take 127 } }

end State

/-- The value for a key. -/
def daemonValue (st : State) (key : List UInt8) (p : Cursor) : Option (State × Cursor) :=
  if key = ascii "Label" then (parseStringValue p).map fun r => (st.setLabel r.1, r.2)
  else if key = ascii "ProgramArguments" then
    (parseStringArray p).map fun r => (st.setArgv r.1, r.2)
  else if key = ascii "RunAtLoad" then (parseBoolValue p).map fun r => (st.setRunAtLoad r.1, r.2)
  else if key = ascii "KeepAlive" then (parseBoolValue p).map fun r => (st.setKeepAlive r.1, r.2)
  else if key = ascii "EnvironmentVariables" then
    (parseEnvDict st.cfg.envp p).map fun r => (st.setEnvp r.1, r.2)
  else if key = ascii "StandardOutPath" then
    (parseStringValue p).map fun r => (st.setStdoutPath r.1, r.2)
  else if key = ascii "StandardErrorPath" then
    (parseStringValue p).map fun r => (st.setStderrPath r.1, r.2)
  else (skipValue (p.length + 1) p).map fun r => (st, r.2)

/-- A round of the loop of `plist_parse_daemon` that finds no `</dict>`. -/
def daemonItem (st : State) (p : Cursor) : Option (State × Cursor) :=
  (parseKey p).bind fun r => daemonValue st r.1 r.2

/-- The loop of `plist_parse_daemon`. -/
def daemonLoop : State → Cursor → Option (State × Cursor) :=
  run (consume · (ascii "</dict>")) daemonItem

/-- `plist_parse_daemon`, for what `read` returns of the file, if it can be read. -/
def plistParseDaemon (file : Option (List UInt8)) : Option DaemonConfig := do
  let contents ← file
  let (_, p) ← strstr (ascii "<dict>") (CString.ofBytes contents).bytes
  let (st, _) ← daemonLoop .start (p.drop 6)
  if st.haveLabel ∧ st.haveArgs then some st.cfg else none

/-! ## Tags -/

/-- The text starts like a tag and not like a comment. -/
def IsTag : List UInt8 → Bool
  | a :: b :: _ => a == byte '<' && b != byte '!'
  | _ => false

/-- Nothing is skipped before a tag. -/
lemma skipWs_tag {tag : List UInt8} (h : IsTag tag = true) (c : List UInt8) :
    skipWs (tag ++ c) = tag ++ c := by
  obtain ⟨a, b, t, rfl⟩ : ∃ a b t, tag = a :: b :: t := by
    rcases tag with _ | ⟨a, _ | ⟨b, t⟩⟩ <;> simp_all [IsTag]
  simp only [IsTag, Bool.and_eq_true, beq_iff_eq, bne_iff_ne] at h
  obtain ⟨rfl, hb⟩ := h
  have hdrop : (byte '<' :: b :: t ++ c).dropWhile isWs = byte '<' :: b :: t ++ c :=
    List.dropWhile_cons_of_neg (by decide)
  have hcomment : (ascii "<!--").isPrefixOf (byte '<' :: b :: t ++ c) = false := by
    refine isPrefixOf_append_of_mismatch ?_ c
    have hne : (byte '!' != b) = true := bne_iff_ne.mpr hb.symm
    simp [ascii, Mismatch, hne]
  rw [skipWs, hdrop, hcomment, if_neg Bool.false_ne_true]

/-- Behind a comment, more is skipped. -/
lemma skipWs_of_comment {p front e : Cursor}
    (hcomment : (ascii "<!--").isPrefixOf (p.dropWhile isWs) = true)
    (hend : strstr (ascii "-->") (p.dropWhile isWs) = some (front, e)) :
    skipWs p = skipWs (e.drop 3) := by
  rw [skipWs, if_pos hcomment]
  split
  · next h =>
    rw [hend] at h
    cases h
  · next h =>
    rw [hend] at h
    obtain ⟨-, rfl⟩ := Prod.mk.inj (Option.some.inj h)
    rfl

/-- Without a comment that ends, only white space is skipped. -/
lemma skipWs_of_noComment {p : Cursor} (h : (ascii "<!--").isPrefixOf (p.dropWhile isWs) = true →
    strstr (ascii "-->") (p.dropWhile isWs) = none) : skipWs p = p.dropWhile isWs := by
  rw [skipWs]
  split_ifs with hcomment
  · split
    · rfl
    · next hend =>
      rw [h hcomment] at hend
      cases hend
  · rfl

/-- What is skipped is skipped at once. -/
lemma skipWs_skipWs (p : Cursor) : skipWs (skipWs p) = skipWs p := by
  have hstays : ∀ q : Cursor, ((ascii "<!--").isPrefixOf (q.dropWhile isWs) = true →
      strstr (ascii "-->") (q.dropWhile isWs) = none) → skipWs (skipWs q) = skipWs q := by
    intro q h
    have hidem := List.dropWhile_idempotent isWs q
    rw [skipWs_of_noComment h, skipWs_of_noComment (by rwa [hidem]), hidem]
  induction p using skipWs.induct with
  | case1 p _ hnone => exact hstays p fun _ => hnone
  | case2 p hcomment front e hend ih => rw [skipWs_of_comment hcomment hend, ih]
  | case3 p hcomment => exact hstays p fun h => absurd h hcomment

/-- Nothing is put back. -/
lemma length_skipWs_le (p : Cursor) : (skipWs p).length ≤ p.length := by
  have hdrop : ∀ q : Cursor, (q.dropWhile isWs).length ≤ q.length := fun q =>
    (List.dropWhile_sublist _).length_le
  induction p using skipWs.induct with
  | case1 p _ hnone =>
    rw [skipWs_of_noComment fun _ => hnone]
    exact hdrop p
  | case2 p hcomment front e hend ih =>
    have hcat := congrArg List.length (strstr_append_eq hend).1
    have hle := hdrop p
    rw [List.length_append] at hcat
    rw [skipWs_of_comment hcomment hend]
    rw [List.length_drop] at ih
    omega
  | case3 p hcomment =>
    rw [skipWs_of_noComment fun h => absurd h hcomment]
    exact hdrop p

/-- White space is skipped. -/
lemma skipWs_blank {blank : List UInt8} (h : ∀ b ∈ blank, isWs b = true) (s : Cursor) :
    skipWs (blank ++ s) = skipWs s := by
  have hdrop : (blank ++ s).dropWhile isWs = s.dropWhile isWs := List.dropWhile_append_of_pos h
  by_cases hcomment : (ascii "<!--").isPrefixOf (s.dropWhile isWs) = true
  · cases hend : strstr (ascii "-->") (s.dropWhile isWs) with
    | none =>
      rw [skipWs_of_noComment fun _ => hend, skipWs_of_noComment fun _ => by rwa [hdrop], hdrop]
    | some r =>
      obtain ⟨front, e⟩ := r
      rw [skipWs_of_comment hcomment hend, skipWs_of_comment (by rwa [hdrop]) (by rwa [hdrop])]
  · rw [skipWs_of_noComment fun h => absurd h hcomment,
      skipWs_of_noComment fun h => absurd (hdrop ▸ h) hcomment, hdrop]

/-- A comment is skipped whatever follows it. -/
lemma skipWs_comment {front e : Cursor}
    (hcomment : (ascii "<!--").isPrefixOf (front ++ (ascii "-->" ++ e)) = true)
    (hend : strstr (ascii "-->") (front ++ (ascii "-->" ++ e)) = some (front, ascii "-->" ++ e))
    (s : Cursor) : skipWs (front ++ (ascii "-->" ++ s)) = skipWs s := by
  -- what ends the comment cannot begin in its first two characters
  obtain ⟨b₀, b₁, front, rfl⟩ : ∃ b₀ b₁ t, front = b₀ :: b₁ :: t := by
    rcases front with _ | ⟨b₀, _ | ⟨b₁, t⟩⟩
    · exact absurd hcomment (by simp [ascii, byte])
    · exact absurd hcomment (by simp [ascii, byte])
    · exact ⟨b₀, b₁, t, rfl⟩
  have hprefix : ∀ x : Cursor, (ascii "<!--").isPrefixOf (b₀ :: b₁ :: front ++ (ascii "-->" ++ x)) =
      (ascii "<!--").isPrefixOf (b₀ :: b₁ :: front ++ ascii "-->") := by
    intro x
    rw [Bool.eq_iff_iff, List.isPrefixOf_iff_prefix, List.isPrefixOf_iff_prefix,
      ← List.append_assoc, List.isPrefix_append_of_length]
    simp [ascii]
  have hstart : b₀ = byte '<' := by
    have hhead := List.isPrefixOf_iff_prefix.mp hcomment
    exact (List.cons_prefix_cons.mp hhead).1.symm
  have hdrop : (b₀ :: b₁ :: front ++ (ascii "-->" ++ s)).dropWhile isWs =
      b₀ :: b₁ :: front ++ (ascii "-->" ++ s) := by
    rw [hstart]
    exact List.dropWhile_cons_of_neg (by decide)
  rw [skipWs_of_comment (by rw [hdrop, hprefix, ← hprefix e, hcomment])
    (by rw [hdrop]; exact strstr_append_right (by decide) hend s)]
  rfl

/-- What is skipped before a tag is skipped whatever follows the tag. -/
lemma skipWs_append {tag s r : List UInt8} (htag : IsTag tag = true) (h : skipWs s = tag ++ r) :
    ∃ a, s = a ++ (tag ++ r) ∧ ∀ x, skipWs (a ++ (tag ++ x)) = tag ++ x := by
  have hblank : ∀ p : Cursor, ∀ b ∈ p.takeWhile isWs, isWs b = true := fun p b hb =>
    List.mem_takeWhile_imp hb
  have hstays : ∀ p : Cursor, p.dropWhile isWs = tag ++ r →
      ∃ a, p = a ++ (tag ++ r) ∧ ∀ x, skipWs (a ++ (tag ++ x)) = tag ++ x := by
    intro p hp
    refine ⟨p.takeWhile isWs, ?_, fun x => ?_⟩
    · rw [← hp, List.takeWhile_append_dropWhile]
    · rw [skipWs_blank (hblank p), skipWs_tag htag]
  induction s using skipWs.induct with
  | case1 s _ hnone =>
    rw [skipWs_of_noComment fun _ => hnone] at h
    exact hstays s h
  | case2 s hcomment front e hend ih =>
    rw [skipWs_of_comment hcomment hend] at h
    obtain ⟨a, ha, hskip⟩ := ih h
    obtain ⟨hcat, e', rfl⟩ := strstr_append_eq hend
    obtain rfl : e' = a ++ (tag ++ r) := ha
    rw [← hcat] at hcomment hend
    refine ⟨s.takeWhile isWs ++ (front ++ (ascii "-->" ++ a)), ?_, fun x => ?_⟩
    · have hs := List.takeWhile_append_dropWhile (p := isWs) (l := s)
      rw [← hcat] at hs
      simpa only [List.append_assoc] using hs.symm
    · simp only [List.append_assoc]
      rw [skipWs_blank (hblank s), skipWs_comment hcomment hend, hskip]
  | case3 s hcomment =>
    rw [skipWs_of_noComment fun h => absurd h hcomment] at h
    exact hstays s h

/-! ## Readers that start with a tag -/

variable {α γ σ : Type}

/-- A tag that is there. -/
lemma consume_of_skipWs {p c tag : List UInt8} (h : skipWs p = tag ++ c) :
    consume p tag = (true, c) := by
  simp [consume, h]

/-- What is found if a tag is there. -/
lemma skipWs_of_consume {p c tag : List UInt8} (h : consume p tag = (true, c)) :
    skipWs p = tag ++ c := by
  unfold consume at h
  dsimp only at h
  split_ifs at h with hprefix
  · obtain ⟨-, rfl⟩ := Prod.mk.inj h
    obtain ⟨c, hc⟩ := List.isPrefixOf_iff_prefix.mp hprefix
    rw [← hc, List.drop_left]
  · cases h

/-- The look for a tag that is not there skips white space. -/
lemma consume_of_false {p tag : List UInt8} (h : (consume p tag).1 = false) :
    (consume p tag).2 = skipWs p := by
  unfold consume at h ⊢
  dsimp only at h ⊢
  split_ifs at h ⊢ with hprefix
  rfl

/-- White space before a tag does not matter. -/
lemma consume_skipWs (p tag : List UInt8) : consume (skipWs p) tag = consume p tag := by
  rw [consume, consume, skipWs_skipWs]

/-- Where a tag is, no other one is. -/
lemma consume_false_of_mismatch {p c tag tag' : List UInt8} (h : consume p tag = (true, c))
    (hne : Mismatch tag' tag = true) : (consume p tag').1 = false := by
  rw [consume, skipWs_of_consume h]
  simp [isPrefixOf_append_of_mismatch hne]

/-- Behind a tag that is there, less is left. -/
lemma length_of_consume {p c tag : List UInt8} (htag : IsTag tag = true)
    (h : consume p tag = (true, c)) : c.length < p.length := by
  obtain ⟨a, ha, -⟩ := skipWs_append htag (skipWs_of_consume h)
  have hpos : 0 < tag.length := by
    refine List.length_pos_iff.mpr fun hnil => ?_
    rw [hnil] at htag
    cases htag
  rw [ha, List.length_append, List.length_append]
  omega

/-- What is read starts with one of the tags, and what it is does not depend on what follows. -/
structure ReadsTag (tags : List (List UInt8)) (f : Cursor → Option (α × Cursor)) : Prop where
  reads : Reads f
  skip : ∀ p, f (skipWs p) = f p
  opens : ∀ p r, f p = some r → ∃ tag ∈ tags, (consume p tag).1 = true
  progress : ∀ p v r, f p = some (v, r) → r.length < p.length

/-- Alternatives, one after the other. -/
lemma choose_cons (tag : List UInt8) (f : Cursor → Option (α × Cursor))
    (alternatives : List (List UInt8 × (Cursor → Option (α × Cursor)))) (p : Cursor) :
    choose ((tag, f) :: alternatives) p =
      if (consume p tag).1 then f (consume p tag).2 else choose alternatives p := by
  have hskip : choose alternatives (skipWs p) = choose alternatives p := by
    cases alternatives with
    | nil => rfl
    | cons alternative alternatives => rw [choose, choose, consume_skipWs]
  rw [choose]
  cases hconsume : consume p tag with
  | mk found c =>
    cases found with
    | true => rfl
    | false =>
      have hc : c = skipWs p := by
        rw [← consume_of_false (by rw [hconsume]), hconsume]
      simp [hc, hskip]

/-- The alternative whose tag is there is taken. -/
lemma choose_of_consume {alternatives : List (List UInt8 × (Cursor → Option (α × Cursor)))}
    {tags : List (List UInt8)} (htags : alternatives.map Prod.fst = tags)
    (hpair : tags.Pairwise fun tag tag' => Mismatch tag tag' = true) {tag : List UInt8}
    {f : Cursor → Option (α × Cursor)} (hmem : (tag, f) ∈ alternatives) {p c : Cursor}
    (h : consume p tag = (true, c)) : choose alternatives p = f c := by
  induction alternatives generalizing tags with
  | nil => exact absurd hmem List.not_mem_nil
  | cons alternative alternatives ih =>
    obtain ⟨tag', f'⟩ := alternative
    subst htags
    rw [List.map_cons, List.pairwise_cons] at hpair
    rw [choose_cons]
    rcases List.mem_cons.mp hmem with heq | hmem
    · obtain ⟨rfl, rfl⟩ := Prod.mk.inj heq
      rw [h, if_pos rfl]
    · have hnot := consume_false_of_mismatch h (hpair.1 tag (List.mem_map_of_mem hmem))
      rw [hnot, if_neg Bool.false_ne_true, ih rfl hpair.2 hmem]

/-- Something is chosen if a tag is there. -/
lemma exists_of_choose {alternatives : List (List UInt8 × (Cursor → Option (α × Cursor)))}
    {p : Cursor} {r : α × Cursor} (h : choose alternatives p = some r) :
    ∃ alternative ∈ alternatives, ∃ c, consume p alternative.1 = (true, c) ∧
      alternative.2 c = some r := by
  induction alternatives with
  | nil => cases h
  | cons alternative alternatives ih =>
    rw [choose_cons] at h
    split_ifs at h with hfound
    · exact ⟨alternative, List.mem_cons_self, _, Prod.ext hfound rfl, h⟩
    · obtain ⟨alternative', hmem, hrest⟩ := ih h
      exact ⟨alternative', List.mem_cons_of_mem _ hmem, hrest⟩

/-- **Alternatives start with their tags**, and what they read does not depend on what follows. -/
lemma readsTag_choose {alternatives : List (List UInt8 × (Cursor → Option (α × Cursor)))}
    {tags : List (List UInt8)} (htags : alternatives.map Prod.fst = tags)
    (hpair : tags.Pairwise fun tag tag' => Mismatch tag tag' = true)
    (htag : ∀ tag ∈ tags, IsTag tag = true)
    (hreads : ∀ alternative ∈ alternatives, Reads alternative.2) :
    ReadsTag tags (choose alternatives) where
  reads := by
    intro s v r h
    obtain ⟨⟨tag, f⟩, hmem, c, hfound, hread⟩ := exists_of_choose h
    have hmemTag : tag ∈ tags := htags ▸ List.mem_map_of_mem hmem
    obtain ⟨a, ha, hskip⟩ := skipWs_append (htag tag hmemTag) (skipWs_of_consume hfound)
    obtain ⟨b, rfl, hb⟩ := hreads _ hmem c v r hread
    refine ⟨a ++ (tag ++ b), by simp only [ha, List.append_assoc], fun x => ?_⟩
    have hthere : consume (a ++ (tag ++ b) ++ x) tag = (true, b ++ x) := by
      refine consume_of_skipWs ?_
      rw [List.append_assoc, List.append_assoc, hskip]
    rw [choose_of_consume htags hpair hmem hthere]
    exact hb x
  skip p := by
    cases alternatives with
    | nil => rfl
    | cons alternative alternatives => rw [choose, choose, consume_skipWs]
  opens p r h := by
    obtain ⟨⟨tag, f⟩, hmem, c, hfound, -⟩ := exists_of_choose h
    exact ⟨tag, htags ▸ List.mem_map_of_mem hmem, by rw [hfound]⟩
  progress p v r h := by
    obtain ⟨⟨tag, f⟩, hmem, c, hfound, hread⟩ := exists_of_choose h
    have hlt := length_of_consume (htag tag (htags ▸ List.mem_map_of_mem hmem)) hfound
    exact ((hreads _ hmem).suffix hread).length_le.trans_lt hlt

/-- One reader after the other. -/
lemma ReadsTag.bind {tags : List (List UInt8)} {f : Cursor → Option (α × Cursor)}
    {g : α → Cursor → Option (γ × Cursor)} (hf : ReadsTag tags f) (hg : ∀ v, Reads (g v)) :
    ReadsTag tags fun p => (f p).bind fun r => g r.1 r.2 where
  reads := hf.reads.bind hg
  skip p := by
    rw [hf.skip]
  opens p r h := by
    obtain ⟨v, hv, -⟩ := Option.bind_eq_some_iff.mp h
    exact hf.opens p v hv
  progress p w r h := by
    obtain ⟨⟨v, q⟩, hv, hnext⟩ := Option.bind_eq_some_iff.mp h
    exact ((hg v).suffix hnext).length_le.trans_lt (hf.progress p v q hv)

/-- A reader whose result is changed. -/
lemma ReadsTag.map {tags : List (List UInt8)} {f : Cursor → Option (α × Cursor)}
    (hf : ReadsTag tags f) (g : α → γ) :
    ReadsTag tags fun p => (f p).map fun r => (g r.1, r.2) := by
  have hbind := hf.bind fun v => reads_pure (g v)
  simpa only [Option.map_eq_bind, Function.comp_def] using hbind

/-- A loop of such readers that ends at a tag that none of them starts with. -/
lemma ReadsTag.loopable {tags : List (List UInt8)} {item : σ → Cursor → Option (σ × Cursor)}
    (hitem : ∀ st, ReadsTag tags (item st)) {closeTag : List UInt8} (htag : IsTag closeTag = true)
    (hne : ∀ tag ∈ tags, Mismatch closeTag tag = true) :
    Loopable (consume · closeTag) item where
  mark s r h := by
    obtain ⟨a, ha, hskip⟩ := skipWs_append htag (skipWs_of_consume h)
    refine ⟨a ++ closeTag, by rw [ha, List.append_assoc], fun x => consume_of_skipWs ?_⟩
    rw [List.append_assoc, hskip]
  skip st s h := by
    rw [consume_of_false h, (hitem st).skip]
  excludes st s r h := by
    obtain ⟨tag, hmem, hfound⟩ := (hitem st).opens s r h
    exact consume_false_of_mismatch (Prod.ext hfound rfl) (hne tag hmem)
  reads st := (hitem st).reads
  progress st := (hitem st).progress

/-! ## What the parser reads -/

/-- A text up to its closing tag. -/
lemma reads_textUntil {closeTag : List UInt8} (hne : closeTag ≠ []) :
    Reads fun p => textUntil p closeTag := by
  intro s v r h
  obtain ⟨⟨raw, e⟩, hfound, heq⟩ := Option.map_eq_some_iff.mp h
  obtain ⟨rfl, rfl⟩ := Prod.mk.inj heq
  obtain ⟨rfl, e, rfl⟩ := strstr_append_eq hfound
  refine ⟨raw ++ closeTag, by simp, fun x => ?_⟩
  have hstill := strstr_append_right hne hfound x
  simp [textUntil, hstill]

/-- `parse_key`. -/
lemma readsTag_parseKey : ReadsTag [ascii "<key>"] parseKey := by
  refine readsTag_choose rfl (by decide) (by decide) ?_
  intro alternative hmem
  obtain rfl := List.mem_singleton.mp hmem
  exact (reads_textUntil (by decide)).map (List.take 127)

/-- `parse_string_value`. -/
lemma readsTag_parseStringValue : ReadsTag [ascii "<string>"] parseStringValue := by
  refine readsTag_choose rfl (by decide) (by decide) ?_
  intro alternative hmem
  obtain rfl := List.mem_singleton.mp hmem
  exact reads_textUntil (by decide)

/-- `parse_bool_value`. -/
lemma readsTag_parseBoolValue : ReadsTag [ascii "<true/>", ascii "<false/>"] parseBoolValue := by
  refine readsTag_choose rfl (by decide) (by decide) ?_
  simp only [List.forall_mem_cons, List.not_mem_nil, false_implies, implies_true, and_true]
  exact ⟨reads_pure true, reads_pure false⟩

/-- The tags that `skip_value` knows. -/
def skipTags : List (List UInt8) :=
  [ascii "<true/>", ascii "<false/>", ascii "<string>", ascii "<integer>", ascii "<array>",
    ascii "<dict>"]

/-- The loop over the elements of an array that is skipped. -/
lemma loopable_skipArray {f : Cursor → Option (Unit × Cursor)} (hf : ReadsTag skipTags f) :
    Loopable (consume · (ascii "</array>")) fun _ => f :=
  ReadsTag.loopable (fun _ => hf) (by decide) (by decide)

/-- The loop over the keys of a dictionary that is skipped. -/
lemma loopable_skipDict {f : Cursor → Option (Unit × Cursor)} (hf : ReadsTag skipTags f) :
    Loopable (consume · (ascii "</dict>")) fun _ p => (parseKey p).bind fun r => f r.2 :=
  ReadsTag.loopable (fun _ => (readsTag_parseKey).bind fun _ => hf.reads) (by decide) (by decide)

/-- `skip_value`, to so many levels. -/
lemma readsTag_skipValue (fuel : ℕ) : ReadsTag skipTags (skipValue fuel) := by
  induction fuel with
  | zero => exact ⟨reads_none, fun _ => rfl, nofun, nofun⟩
  | succ fuel ih =>
    refine @readsTag_choose _ (skipCases (skipValue fuel)) skipTags rfl (by decide) (by decide) ?_
    have htext : ∀ closeTag : List UInt8, closeTag ≠ [] → Reads (skipText closeTag) := fun _ h =>
      (reads_textUntil h).map fun _ => ()
    simp only [skipCases, List.forall_mem_cons, List.not_mem_nil, false_implies, implies_true,
      and_true]
    exact ⟨reads_pure (), reads_pure (), htext _ (by decide), htext _ (by decide),
      (loopable_skipArray ih).reads_run (), (loopable_skipDict ih).reads_run ()⟩

/-- Chains with the same tags that go on in the same way. -/
lemma choose_congr {alternatives alternatives' : List (List UInt8 × (Cursor → Option (α × Cursor)))}
    {p : Cursor} (h : List.Forall₂ (fun a a' => a.1 = a'.1 ∧ IsTag a.1 = true ∧
      ∀ c : Cursor, c.length < p.length → a.2 c = a'.2 c) alternatives alternatives') :
    choose alternatives p = choose alternatives' p := by
  induction h with
  | nil => rfl
  | @cons a a' alternatives alternatives' ha _ ih =>
    obtain ⟨tag, f⟩ := a
    obtain ⟨tag', f'⟩ := a'
    obtain ⟨rfl, htag, hf⟩ := ha
    rw [choose_cons, choose_cons, ih]
    refine ite_congr rfl (fun hfound => ?_) fun _ => rfl
    exact hf _ (length_of_consume htag (Prod.ext hfound rfl))

/-- The element whose tag is there is skipped. -/
lemma skipValue_succ {fuel : ℕ} {tag : List UInt8} {f : Cursor → Option (Unit × Cursor)}
    (hmem : (tag, f) ∈ skipCases (skipValue fuel)) {p c : Cursor} (h : consume p tag = (true, c)) :
    skipValue (fuel + 1) p = f c := by
  have htags : (skipCases (skipValue fuel)).map Prod.fst = skipTags := rfl
  exact choose_of_consume htags (by decide) hmem h

/-- **More levels than there are characters make no difference.**

**Proof sketch.** Every level takes a tag, so that what is read in it is shorter. -/
theorem skipValue_eq {p : Cursor} {fuel fuel' : ℕ} (h : p.length < fuel) (h' : p.length < fuel') :
    skipValue fuel p = skipValue fuel' p := by
  induction fuel generalizing fuel' p with
  | zero => exact absurd h (Nat.not_lt_zero _)
  | succ fuel ih =>
    obtain ⟨fuel', rfl⟩ : ∃ k, fuel' = k + 1 := ⟨fuel' - 1, by omega⟩
    have hf := readsTag_skipValue fuel
    have hf' := readsTag_skipValue fuel'
    have hrec : ∀ q : Cursor, q.length < p.length → skipValue fuel q = skipValue fuel' q :=
      fun q hq => ih (by omega) (by omega)
    have harray : ∀ c : Cursor, c.length < p.length →
        run (consume · (ascii "</array>")) (fun _ => skipValue fuel) () c =
          run (consume · (ascii "</array>")) (fun _ => skipValue fuel') () c := fun c hc =>
      (loopable_skipArray hf).run_congr (loopable_skipArray hf') fun _ r hr =>
        hrec r (hr.trans_lt hc)
    have hdict : ∀ c : Cursor, c.length < p.length →
        run (consume · (ascii "</dict>"))
            (fun _ p => (parseKey p).bind fun r => skipValue fuel r.2) () c =
          run (consume · (ascii "</dict>"))
            (fun _ p => (parseKey p).bind fun r => skipValue fuel' r.2) () c := fun c hc => by
      refine (loopable_skipDict hf).run_congr (loopable_skipDict hf') fun _ r hr => ?_
      refine Option.bind_congr fun key hkey => hrec key.2 ?_
      have hlt := (readsTag_parseKey).progress r key.1 key.2 hkey
      omega
    rw [skipValue, skipValue]
    refine choose_congr ?_
    exact .cons ⟨rfl, rfl, fun _ _ => rfl⟩ <| .cons ⟨rfl, rfl, fun _ _ => rfl⟩ <|
      .cons ⟨rfl, rfl, fun _ _ => rfl⟩ <| .cons ⟨rfl, rfl, fun _ _ => rfl⟩ <|
      .cons ⟨rfl, rfl, harray⟩ <| .cons ⟨rfl, rfl, hdict⟩ .nil

/-- `skip_value`. -/
lemma readsTag_skip : ReadsTag skipTags fun p => skipValue (p.length + 1) p where
  reads := by
    intro s v r h
    obtain ⟨a, rfl, -⟩ := (readsTag_skipValue _).reads s v r h
    refine ⟨a, rfl, fun x => ?_⟩
    -- as many levels as both of the texts have characters
    have hmore : skipValue ((a ++ r).length + (a ++ x).length + 1) (a ++ r) = some (v, r) := by
      rw [← h]
      exact skipValue_eq (by omega) (by omega)
    obtain ⟨b, hb, hreads⟩ := (readsTag_skipValue _).reads _ v r hmore
    obtain rfl := List.append_cancel_right hb
    rw [← hreads x]
    exact skipValue_eq (by omega) (by omega)
  skip p := by
    have hle := length_skipWs_le p
    have hmore : skipValue ((skipWs p).length + 1) (skipWs p) =
        skipValue (p.length + 1) (skipWs p) := skipValue_eq (by omega) (by omega)
    rw [hmore, (readsTag_skipValue _).skip]
  opens p := (readsTag_skipValue _).opens p
  progress p := (readsTag_skipValue _).progress p

/-- `parse_string_array`. -/
lemma readsTag_parseStringArray : ReadsTag [ascii "<array>"] parseStringArray := by
  refine readsTag_choose rfl (by decide) (by decide) ?_
  have hloop : Loopable (consume · (ascii "</array>")) stringItem :=
    ReadsTag.loopable (fun argv => (readsTag_parseStringValue).map fun s =>
      if argv.length < daemonMaxArgs then argv ++ [s] else argv) (by decide) (by decide)
  intro alternative hmem
  obtain rfl := List.mem_singleton.mp hmem
  exact hloop.reads_run []

/-- `parse_env_dict`. -/
lemma readsTag_parseEnvDict (envp : List (List UInt8)) :
    ReadsTag [ascii "<dict>"] (parseEnvDict envp) := by
  refine readsTag_choose rfl (by decide) (by decide) ?_
  have hloop : Loopable (consume · (ascii "</dict>")) envItem :=
    ReadsTag.loopable (fun envp => (readsTag_parseKey).bind fun key =>
      (readsTag_parseStringValue).reads.map fun val =>
        if envp.length < daemonMaxEnv then envp ++ [key ++ byte '=' :: val] else envp)
      (by decide) (by decide)
  intro alternative hmem
  obtain rfl := List.mem_singleton.mp hmem
  exact hloop.reads_run envp

/-- The value for a key. -/
lemma reads_daemonValue (st : State) (key : List UInt8) : Reads (daemonValue st key) := by
  unfold daemonValue
  split_ifs
  · exact (readsTag_parseStringValue).reads.map st.setLabel
  · exact (readsTag_parseStringArray).reads.map st.setArgv
  · exact (readsTag_parseBoolValue).reads.map st.setRunAtLoad
  · exact (readsTag_parseBoolValue).reads.map st.setKeepAlive
  · exact (readsTag_parseEnvDict st.cfg.envp).reads.map st.setEnvp
  · exact (readsTag_parseStringValue).reads.map st.setStdoutPath
  · exact (readsTag_parseStringValue).reads.map st.setStderrPath
  · exact (readsTag_skip).reads.map fun _ => st

/-- **What is read for a key does not depend on what follows.** -/
theorem readsTag_daemonItem (st : State) : ReadsTag [ascii "<key>"] (daemonItem st) :=
  readsTag_parseKey.bind (reads_daemonValue st)

/-- The loop of `plist_parse_daemon`. -/
lemma loopable_daemonItem : Loopable (consume · (ascii "</dict>")) daemonItem :=
  ReadsTag.loopable readsTag_daemonItem (by decide) (by decide)

end Asteros.Launchd.PropertyList
