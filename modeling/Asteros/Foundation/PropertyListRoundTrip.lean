import Asteros.Foundation.PropertyListReader
import Asteros.Libc.FormatReading

set_option autoImplicit false

/-!
# What Foundation's property list codec writes and reads

The writer puts out the lines of its spelling, nothing for a null. The reader, given the lines of
any spelling, reads them back: a null that was a value of an array is missing from the array, and
one that was a value of a dictionary leaves a key without a value, which fails the whole parse.

## Main definitions

* `IsGraph` — property lists that may have nulls in them.
* `Foundation.readBack` — what is read for the lines of such a graph.

## Main results

* `Foundation.writeValue_eq` — the writer puts out the lines of its spelling.
* `Foundation.parse_text` — what the reader makes of lines.
* `Foundation.propertyListWithData_text` — what it makes of a whole document.
-/

namespace Asteros.CoreFoundation.CFObject

variable {δ : Type}

/-- A null, or an object of the types that property lists have. -/
def GraphAt : CFObject δ → Prop
  | .null => True
  | o => PlistAt o

/-- A property list that may have nulls in it. -/
def IsGraph : CFObject δ → Prop := Everywhere GraphAt

/-- A property list is such a graph. -/
lemma IsPlist.isGraph {o : CFObject δ} (h : o.IsPlist) : o.IsGraph := by
  induction o using graphInduction with
  | null => exact trivial
  | array xs ih =>
    refine ⟨h.1, (everywhereValues_iff xs).mpr fun x hx => ih x hx ?_⟩
    exact (everywhereValues_iff xs).mp h.2 x hx
  | dictionary es ih =>
    refine ⟨h.1, (everywhereEntries_iff es).mpr fun e he => ih e he ?_⟩
    exact (everywhereEntries_iff es).mp h.2 e he
  | _ => exact h

/-- Induction over such a graph: reals and dates do not occur. -/
lemma isGraph_induction {P : CFObject δ → Prop} (null : P .null) (boolean : ∀ b, P (.boolean b))
    (integer : ∀ v, P (.integer v)) (string : ∀ s, 0 ∉ s → P (.string s))
    (data : ∀ d, P (.data d)) (array : ∀ xs, (∀ x ∈ xs, P x) → P (.array xs))
    (dictionary : ∀ es, (keys es).Nodup → (∀ k ∈ keys es, 0 ∉ k) → (∀ e ∈ es, P e.2) →
      P (.dictionary es)) {o : CFObject δ} (ho : o.IsGraph) : P o := by
  induction o using graphInduction with
  | null => exact null
  | boolean b => exact boolean b
  | integer v => exact integer v
  | real d => exact ho.elim
  | string bs => exact string bs ho
  | data bs => exact data bs
  | date s => exact ho.elim
  | array xs ih => exact array xs fun x hx => ih x hx ((everywhereValues_iff xs).mp ho.2 x hx)
  | dictionary es ih =>
    exact dictionary es ho.1.1 ho.1.2 fun e he => ih e he ((everywhereEntries_iff es).mp ho.2 e he)

end Asteros.CoreFoundation.CFObject

namespace Asteros.Foundation

open Asteros.Libc Asteros.CoreFoundation

variable {δ : Type} (lib : Library δ)

/-! ## The writer -/

/-- The first entry with a key is found. -/
lemma textForKey_of_mem {texts : List (List UInt8 × List UInt8)}
    (hnodup : (texts.map Prod.fst).Nodup) {e : List UInt8 × List UInt8} (he : e ∈ texts) :
    textForKey texts e.1 = e.2 := by
  induction texts with
  | nil => exact absurd he List.not_mem_nil
  | cons f texts ih =>
    obtain ⟨k, t⟩ := f
    rw [List.map_cons, List.nodup_cons] at hnodup
    rcases List.mem_cons.mp he with rfl | he
    · rw [textForKey, if_pos rfl]
    · have hmem : e.1 ∈ texts.map Prod.fst := List.mem_map_of_mem he
      have hne : k ≠ e.1 := fun h => hnodup.1 (h ▸ hmem)
      rw [textForKey, if_neg hne, ih hnodup.2 he]

/-- The loop over the keys puts out every key with what was written for its value. -/
lemma writeKeys_eq {es : Entries δ} (hnodup : (keys es).Nodup) (hnul : ∀ k ∈ keys es, 0 ∉ k)
    (depth : ℕ) :
    writeKeys depth (es.map fun e => (e.1, nsSpelling.text depth e.2)) (keys es) =
      nsSpelling.textEntries depth es := by
  have hlookup : ∀ e ∈ es, textForKey (es.map fun e => (e.1, nsSpelling.text depth e.2)) e.1 =
      nsSpelling.text depth e.2 := by
    intro e he
    have hmap : (es.map fun e => (e.1, nsSpelling.text depth e.2)).map Prod.fst = keys es := by
      rw [List.map_map]
      rfl
    exact textForKey_of_mem (e := (e.1, nsSpelling.text depth e.2)) (by rw [hmap]; exact hnodup)
      (List.mem_map_of_mem (f := fun e => (e.1, nsSpelling.text depth e.2)) he)
  have hentries : ∀ fs : Entries δ, nsSpelling.textEntries depth fs = fs.flatMap fun e =>
      appendIndent depth ++ ascii "<key>" ++ nsSpelling.escape e.1 ++ ascii "</key>\n" ++
        nsSpelling.text depth e.2 := by
    intro fs
    induction fs with
    | nil => rfl
    | cons e fs ih =>
      obtain ⟨k, v⟩ := e
      rw [Spelling.textEntries, ih, List.flatMap_cons]
  rw [writeKeys, keys, List.flatMap_map, hentries]
  refine List.flatMap_congr fun e he => ?_
  have hk : 0 ∉ e.1 := hnul e.1 (List.mem_map_of_mem he)
  rw [hlookup e he, appendEscaped, CString.bytes_ofBytes_of_nulFree hk]
  rfl

/-- **The writer puts out the lines of its spelling**, and never stores outside an array.

**Proof sketch.** Induction over the graph. An integer is formatted through the formatter of
strings, whose array takes every number (`format_integer`). -/
theorem writeValue_eq {o : CFObject δ} (ho : o.IsGraph) (depth : ℕ) :
    writeValue lib depth o = .ok (nsSpelling.text depth o) := by
  refine CFObject.isGraph_induction (P := fun o => ∀ depth, writeValue lib depth o =
    .ok (nsSpelling.text depth o)) ?null ?boolean ?integer ?string ?data ?array ?dictionary ho depth
  case null => exact fun depth => rfl
  case boolean => exact fun b depth => rfl
  case integer =>
    intro v depth
    have hformat : integerFormat.bytes =
        ascii "<integer>" ++ byte '%' :: (ascii "ld" ++ ascii "</integer>\n") := by decide
    rw [writeValue, format_integer (by decide) (by decide) hformat, ok_bind, Spelling.text]
    simp only [List.append_assoc]
  case string =>
    intro s hs depth
    rw [writeValue, appendEscaped, CString.bytes_ofBytes_of_nulFree hs]
    rfl
  case data => exact fun d depth => rfl
  case array =>
    intro xs ih depth
    have hvalues : ∀ depth, writeValues lib depth xs = .ok (nsSpelling.textValues depth xs) := by
      intro depth
      induction xs with
      | nil => rfl
      | cons x xs ih' =>
        rw [writeValues, ih x List.mem_cons_self, ok_bind,
          ih' fun y hy => ih y (List.mem_cons_of_mem _ hy), ok_bind, Spelling.textValues]
    rw [writeValue, hvalues, ok_bind, Spelling.text]
  case dictionary =>
    intro es hnodup hnul ih depth
    have heach : ∀ depth, writeEach lib depth es =
        .ok (es.map fun e => (e.1, nsSpelling.text depth e.2)) := by
      intro depth
      clear hnodup hnul
      induction es with
      | nil => rfl
      | cons e es ih' =>
        obtain ⟨k, v⟩ := e
        rw [writeEach, ih (k, v) List.mem_cons_self, ok_bind,
          ih' fun f hf => ih f (List.mem_cons_of_mem _ hf), ok_bind, List.map_cons]
    rw [writeValue, heach, ok_bind, writeKeys_eq hnodup hnul, Spelling.text]

/-! ## The reader -/

mutual
/-- What is read for the lines of a graph: `none` is `nil`. -/
def readBack : CFObject δ → Option (CFObject δ)
  | .array xs => (readBackValues xs).map .array
  | .dictionary es => (readBackEntries es).map .dictionary
  | o => some o

/-- What is read for the values of an array: nulls are missing. -/
def readBackValues : List (CFObject δ) → Option (List (CFObject δ))
  | [] => some []
  | .null :: xs => readBackValues xs
  | x :: xs => do
    let y ← readBack x
    let ys ← readBackValues xs
    some (y :: ys)

/-- What is read for the entries of a dictionary: a null is no value for a key. -/
def readBackEntries : Entries δ → Option (Entries δ)
  | [] => some []
  | (_, .null) :: _ => none
  | (k, v) :: es => do
    let w ← readBack v
    let fs ← readBackEntries es
    some ((k, w) :: fs)
end

variable (sp : Spelling)

/-- A tag that starts no value fails the parse. -/
lemma parseValue_noValue {lead tag : List UInt8} (hlead : Blank lead) (htag : IsTag tag = true)
    (hm : [ascii "<dict>", ascii "<array>", ascii "<true/>", ascii "<false/>", ascii "<string>",
      ascii "<integer>", ascii "<real>", ascii "<data>", ascii "<date>"].all
        (fun lit => Mismatch lit tag) = true) (c : List UInt8) (fuel : ℕ) :
    parseValue lib (fuel + 1) (lead ++ (tag ++ c)) = .ok none := by
  have hc : ∀ lit ∈ [ascii "<dict>", ascii "<array>", ascii "<true/>", ascii "<false/>",
      ascii "<string>", ascii "<integer>", ascii "<real>", ascii "<data>", ascii "<date>"],
      consume (tag ++ c) lit = (false, tag ++ c) := fun lit hlit =>
    consume_other htag (List.all_eq_true.mp hm lit hlit) c
  simp only [List.forall_mem_cons] at hc
  obtain ⟨h₁, h₂, h₃, h₄, h₅, h₆, h₇, h₈, h₉, -⟩ := hc
  simp only [parseValue, skipWs_of_isTag hlead htag, peek, parseLeaf, h₁, h₂, h₃, h₄, h₅, h₆, h₇,
    h₈, h₉, Bool.false_eq_true, if_false]

/-- The lines of a value start with an opening tag. -/
lemma exists_tag {o : CFObject δ} (ho : o.IsGraph) (hnull : o ≠ .null) (depth : ℕ) :
    ∃ (b : UInt8) (rest : List UInt8), b ≠ byte '/' ∧ b ≠ byte '!' ∧
      sp.text depth o = appendIndent depth ++ ([byte '<', b] ++ rest) := by
  cases o with
  | null => exact absurd rfl hnull
  | real d => exact ho.elim
  | date d => exact ho.elim
  | boolean b =>
    cases b with
    | true => exact ⟨byte 't', ascii "rue/>\n", by decide, by decide, rfl⟩
    | false => exact ⟨byte 'f', ascii "alse/>\n", by decide, by decide, rfl⟩
  | string s =>
    refine ⟨byte 's', ascii "tring>" ++ (sp.escape s ++ ascii "</string>\n"), by decide, by decide, ?_⟩
    simp [Spelling.text, ascii, byte]
  | integer v =>
    refine ⟨byte 'i', ascii "nteger>" ++ (decimal v ++ ascii "</integer>\n"), by decide, by decide, ?_⟩
    simp [Spelling.text, ascii, byte]
  | data d =>
    refine ⟨byte 'd', ascii "ata>" ++ (sp.encode depth d ++ ascii "</data>\n"), by decide,
      by decide, ?_⟩
    simp [Spelling.text, ascii, byte]
  | array xs =>
    refine ⟨byte 'a', ascii "rray>\n" ++ (sp.textValues (depth + 1) xs ++ (appendIndent depth ++
      ascii "</array>\n")), by decide, by decide, ?_⟩
    simp [Spelling.text, ascii, byte]
  | dictionary es =>
    refine ⟨byte 'd', ascii "ict>\n" ++ (sp.textEntries (depth + 1) es ++ (appendIndent depth ++
      ascii "</dict>\n")), by decide, by decide, ?_⟩
    simp [Spelling.text, ascii, byte]

/-- What the parser makes of the lines of a value. -/
def ParsesText (o : CFObject δ) : Prop := ∀ (depth : ℕ) (lead c : List UInt8) (fuel : ℕ),
  Blank lead → (sp.text depth o).length ≤ fuel →
    parseValue lib fuel (lead ++ (sp.text depth o ++ c)) =
      .ok ((readBack o).map (·, ascii "\n" ++ c))

/-- Whitespace and whitespace. -/
private lemma blank_append {s t : List UInt8} (hs : Blank s) (ht : Blank t) : Blank (s ++ t) :=
  fun b hb => (List.mem_append.mp hb).elim (hs b) (ht b)

/-- A line break is whitespace. -/
private lemma blank_line : Blank (ascii "\n") := Spelling.blank_lineLead 0

/-- Before a value the end of the array is not found, and the value is then parsed as if the
whitespace before it had not been skipped. -/
private lemma parseValue_after_consume {o : CFObject δ} (ho : o.IsGraph) (hnull : o ≠ .null)
    (depth : ℕ) {lead : List UInt8} (hlead : Blank lead) (c : List UInt8) (fuel : ℕ) :
    ∃ p, consume (lead ++ (sp.text depth o ++ c)) (ascii "</array>") = (false, p) ∧
      parseValue lib fuel p = parseValue lib fuel (lead ++ (sp.text depth o ++ c)) := by
  obtain ⟨b, rest, hslash, hbang, htext⟩ := exists_tag sp ho hnull depth
  have htag : IsTag [byte '<', b] = true := by simpa [IsTag] using hbang
  have hm : Mismatch (ascii "</array>") [byte '<', b] = true := by
    simpa [Mismatch, ascii] using Ne.symm hslash
  have hblank := blank_append hlead (Spelling.blank_appendIndent depth)
  have hcat : lead ++ (sp.text depth o ++ c) =
      (lead ++ appendIndent depth) ++ ([byte '<', b] ++ (rest ++ c)) := by
    rw [htext]
    simp only [List.append_assoc]
  refine ⟨[byte '<', b] ++ (rest ++ c), ?_, ?_⟩
  · rw [hcat, consume_mismatch hblank htag hm]
  · cases fuel with
    | zero => rfl
    | succ fuel =>
      have h₁ := skipWs_of_isTag hblank htag (rest ++ c)
      have h₂ := skipWs_of_isTag Spelling.blank_nil htag (rest ++ c)
      rw [List.nil_append] at h₂
      rw [hcat, parseValue, parseValue, h₁, h₂]

/-- The loop over the values of an array. -/
private lemma arrayLoop_text {xs : List (CFObject δ)} (hg : ∀ x ∈ xs, x.IsGraph)
    (h : ∀ x ∈ xs, x ≠ .null → ParsesText lib sp x) (depth : ℕ) (a : List (CFObject δ))
    {lead close : List UInt8} (hlead : Blank lead) (hclose : Blank close) (c : List UInt8)
    {fuel : ℕ} (hfuel : (sp.textValues depth xs).length < fuel) :
    arrayLoop lib fuel a (lead ++ (sp.textValues depth xs ++ (close ++ (ascii "</array>" ++ c)))) =
      .ok ((readBackValues xs).map fun ys => (.array (a ++ ys), c)) := by
  induction xs generalizing a lead fuel with
  | nil =>
    obtain ⟨fuel, rfl⟩ : ∃ k, fuel = k + 1 := ⟨fuel - 1, by omega⟩
    have hcat : lead ++ (sp.textValues depth ([] : List (CFObject δ)) ++
        (close ++ (ascii "</array>" ++ c))) = (lead ++ close) ++ (ascii "</array>" ++ c) := by
      simp [Spelling.textValues]
    rw [hcat, arrayLoop, consume_tag (blank_append hlead hclose) (by decide)]
    simp [readBackValues]
  | cons x xs ih =>
    have hgx := hg x List.mem_cons_self
    have ih' := fun a => @ih (fun y hy => hg y (List.mem_cons_of_mem _ hy))
      (fun y hy => h y (List.mem_cons_of_mem _ hy)) a
    by_cases hnull : x = .null
    · subst hnull
      have hnil : sp.textValues depth (CFObject.null :: xs) = sp.textValues depth xs := rfl
      rw [hnil] at hfuel ⊢
      rw [ih' a hlead hfuel, readBackValues]
    · obtain ⟨fuel, rfl⟩ : ∃ k, fuel = k + 1 := ⟨fuel - 1, by omega⟩
      obtain ⟨b, rest, -, -, htext⟩ := exists_tag sp hgx hnull depth
      have hpos : 0 < (sp.text depth x).length := by
        rw [htext]
        simp
      rw [Spelling.textValues, List.length_append] at hfuel
      have hparse := h x List.mem_cons_self hnull depth lead
        (sp.textValues depth xs ++ (close ++ (ascii "</array>" ++ c))) fuel hlead (by omega)
      obtain ⟨p, hconsume, hp⟩ := parseValue_after_consume lib sp hgx hnull depth hlead
        (sp.textValues depth xs ++ (close ++ (ascii "</array>" ++ c))) fuel
      rw [Spelling.textValues, List.append_assoc, arrayLoop, hconsume]
      simp only [Bool.false_eq_true, if_false, hp, hparse, ok_bind]
      have hback : readBackValues (x :: xs) = (do
          let y ← readBack x
          let ys ← readBackValues xs
          some (y :: ys)) := by
        cases x with
        | null => exact absurd rfl hnull
        | _ => rfl
      rw [hback]
      cases hx : readBack x with
      | none => rfl
      | some y =>
        have hrest := ih' (a ++ [y]) blank_line (show (sp.textValues depth xs).length < fuel by omega)
        simp only [Option.map_some, hrest, Option.bind_eq_bind, Option.bind_some]
        cases readBackValues xs with
        | none => rfl
        | some ys => simp

/-- The loop over the keys and values of a dictionary. -/
private lemma dictLoop_text {es : Entries δ} (hg : ∀ e ∈ es, e.2.IsGraph)
    (h : ∀ e ∈ es, e.2 ≠ .null → ParsesText lib sp e.2) (depth : ℕ) (d : Entries δ)
    (hnodup : (keys (d ++ es)).Nodup) (hnul : ∀ k ∈ keys es, 0 ∉ k)
    {lead close : List UInt8} (hlead : Blank lead) (hclose : Blank close) (c : List UInt8)
    {fuel : ℕ} (hfuel : (sp.textEntries depth es).length < fuel) :
    dictLoop lib fuel d (lead ++ (sp.textEntries depth es ++ (close ++ (ascii "</dict>" ++ c)))) =
      .ok ((readBackEntries es).map fun fs => (.dictionary (d ++ fs), c)) := by
  induction es generalizing d lead fuel with
  | nil =>
    obtain ⟨fuel, rfl⟩ : ∃ k, fuel = k + 1 := ⟨fuel - 1, by omega⟩
    have hcat : lead ++ (sp.textEntries depth ([] : Entries δ) ++
        (close ++ (ascii "</dict>" ++ c))) = (lead ++ close) ++ (ascii "</dict>" ++ c) := by
      simp [Spelling.textEntries]
    rw [hcat, dictLoop, consume_tag (blank_append hlead hclose) (by decide)]
    simp [readBackEntries]
  | cons e es ih =>
    obtain ⟨k, v⟩ := e
    obtain ⟨fuel, rfl⟩ : ∃ m, fuel = m + 1 := ⟨fuel - 1, by omega⟩
    have hk : 0 ∉ k := hnul k List.mem_cons_self
    have hblank := blank_append hlead (Spelling.blank_appendIndent depth)
    rw [Spelling.textEntries] at hfuel
    simp only [List.length_append, show (ascii "<key>").length = 5 from rfl,
      show (ascii "</key>\n").length = 7 from rfl] at hfuel
    -- the key is read up to its closing tag
    have hcat : lead ++ (sp.textEntries depth ((k, v) :: es) ++ (close ++ (ascii "</dict>" ++ c))) =
        (lead ++ appendIndent depth) ++ (ascii "<key>" ++ (sp.escape k ++ (ascii "</key>" ++
          (ascii "\n" ++ (sp.text depth v ++ (sp.textEntries depth es ++
            (close ++ (ascii "</dict>" ++ c)))))))) := by
      rw [Spelling.textEntries, show ascii "</key>\n" = ascii "</key>" ++ ascii "\n" from rfl]
      simp only [List.append_assoc]
    have hopen := consume_self (show IsTag (ascii "<key>") = true by decide) (sp.escape k ++
      (ascii "</key>" ++ (ascii "\n" ++ (sp.text depth v ++ (sp.textEntries depth es ++
        (close ++ (ascii "</dict>" ++ c)))))))
    rw [hcat, dictLoop, consume_mismatch hblank (by decide) (by decide)]
    simp only [Bool.false_eq_true, if_false, hopen, Bool.not_true,
      textUntil_plain (sp.escape_plain k hk) (show IsTag (ascii "</key>") = true by decide)]
    by_cases hnull : v = .null
    · -- no value follows the key
      subst hnull
      have hnone : parseValue lib fuel (ascii "\n" ++ (sp.text depth (.null : CFObject δ) ++
          (sp.textEntries depth es ++ (close ++ (ascii "</dict>" ++ c))))) = .ok none := by
        obtain ⟨fuel, rfl⟩ : ∃ m, fuel = m + 1 := ⟨fuel - 1, by omega⟩
        rw [show sp.text depth (CFObject.null : CFObject δ) = [] from rfl, List.nil_append]
        cases es with
        | nil =>
          have hend : ascii "\n" ++ (sp.textEntries depth ([] : Entries δ) ++ (close ++
              (ascii "</dict>" ++ c))) = (ascii "\n" ++ close) ++ (ascii "</dict>" ++ c) := by
            simp [Spelling.textEntries]
          rw [hend]
          exact parseValue_noValue lib (blank_append blank_line hclose) (by decide) (by decide) c _
        | cons f es =>
          obtain ⟨k', v'⟩ := f
          have hnext : ascii "\n" ++ (sp.textEntries depth ((k', v') :: es) ++ (close ++
              (ascii "</dict>" ++ c))) = (ascii "\n" ++ appendIndent depth) ++ (ascii "<key>" ++
                (sp.escape k' ++ (ascii "</key>\n" ++ (sp.text depth v' ++
                  (sp.textEntries depth es ++ (close ++ (ascii "</dict>" ++ c))))))) := by
            rw [Spelling.textEntries]
            simp only [List.append_assoc]
          rw [hnext]
          exact parseValue_noValue lib (blank_append blank_line (Spelling.blank_appendIndent depth))
            (by decide) (by decide) _ _
      simp only [hnone, ok_bind]
      rfl
    · have hv : ParsesText lib sp v := h (k, v) List.mem_cons_self hnull
      have hparse := hv depth (ascii "\n")
        (sp.textEntries depth es ++ (close ++ (ascii "</dict>" ++ c))) fuel blank_line (by omega)
      simp only [hparse, ok_bind]
      have hback : readBackEntries ((k, v) :: es) = (do
          let w ← readBack v
          let fs ← readBackEntries es
          some ((k, w) :: fs)) := by
        cases v with
        | null => exact absurd rfl hnull
        | _ => rfl
      rw [hback]
      cases readBack v with
      | none => rfl
      | some w =>
        have hnew : k ∉ keys d := by
          intro hmem
          rw [keys, List.map_append, List.map_cons] at hnodup
          exact (List.nodup_append.mp hnodup).2.2 k hmem k List.mem_cons_self rfl
        have hnodup' : (keys ((d ++ [(k, w)]) ++ es)).Nodup := by
          have heq : keys ((d ++ [(k, w)]) ++ es) = keys (d ++ (k, v) :: es) := by simp [keys]
          rwa [heq]
        have hrest := ih (fun f hf => hg f (List.mem_cons_of_mem _ hf))
          (fun f hf => h f (List.mem_cons_of_mem _ hf)) (d ++ [(k, w)]) hnodup'
          (fun l hl => hnul l (List.mem_cons_of_mem _ hl)) blank_line
          (show (sp.textEntries depth es).length < fuel by omega)
        simp only [Option.map_some, initWithUTF8String, CString.bytes_ofBytes_of_nulFree hk,
          setValue_of_notMem hnew, hrest, Option.bind_eq_bind, Option.bind_some]
        cases readBackEntries es with
        | none => rfl
        | some fs => simp

/-- A value without children is left to `parseLeaf`. -/
private lemma parsesText_leaf {o : CFObject δ} (tag : List UInt8) (body : ℕ → List UInt8)
    (htag : IsTag tag = true) (hdict : Mismatch (ascii "<dict>") tag = true)
    (harray : Mismatch (ascii "<array>") tag = true)
    (htext : ∀ depth, sp.text depth o = appendIndent depth ++ (tag ++ (body depth ++ ascii "\n")))
    (hleaf : ∀ depth c, parseLeaf lib (tag ++ (body depth ++ c)) = some (o, c))
    (hback : readBack o = some o) : ParsesText lib sp o := by
  intro depth lead c fuel hlead hfuel
  have hblank := blank_append hlead (Spelling.blank_appendIndent depth)
  have hcat : lead ++ (sp.text depth o ++ c) = (lead ++ appendIndent depth) ++
      (tag ++ (body depth ++ (ascii "\n" ++ c))) := by
    rw [htext]
    simp only [List.append_assoc]
  obtain ⟨fuel, rfl⟩ : ∃ k, fuel = k + 1 := by
    refine ⟨fuel - 1, ?_⟩
    rw [htext] at hfuel
    simp only [List.length_append, show (ascii "\n").length = 1 from rfl] at hfuel
    omega
  have h₁ := consume_other htag hdict (body depth ++ (ascii "\n" ++ c))
  have h₂ := consume_other htag harray (body depth ++ (ascii "\n" ++ c))
  rw [hcat]
  simp only [parseValue, skipWs_of_isTag hblank htag, peek, h₁, h₂, Bool.false_eq_true, if_false,
    hleaf, hback, Option.map_some]

/-- The elements with text. -/
private lemma parseLeaf_text (c : List UInt8) :
    parseLeaf lib (ascii "<true/>" ++ c) = some (.boolean true, c) ∧
    parseLeaf lib (ascii "<false/>" ++ c) = some (.boolean false, c) ∧
    parseLeaf lib (ascii "<string>" ++ c) = textElement c (ascii "</string>")
      (fun text => some (.string (initWithUTF8String text))) ∧
    parseLeaf lib (ascii "<integer>" ++ c) = textElement c (ascii "</integer>")
      (fun text => some (.integer (strtol (CString.ofBytes text) 10).1)) ∧
    parseLeaf lib (ascii "<data>" ++ c) = textElement c (ascii "</data>")
      (fun text => some (.data (base64Decode (CString.ofBytes text).bytes))) := by
  have hself : ∀ tag, IsTag tag = true → consume (tag ++ c) tag = (true, c) := fun tag htag =>
    consume_self htag c
  have hother : ∀ lit tag, IsTag tag = true → Mismatch lit tag = true →
      consume (tag ++ c) lit = (false, tag ++ c) := fun lit tag htag hm => consume_other htag hm c
  refine ⟨?_, ?_, ?_, ?_, ?_⟩
  · simp only [parseLeaf, hself _ (show IsTag (ascii "<true/>") = true by decide), if_true]
  · have htag : IsTag (ascii "<false/>") = true := by decide
    rw [parseLeaf, hother (ascii "<true/>") _ htag (by decide)]
    simp only [hself _ htag, if_true, Bool.false_eq_true, if_false]
  · have htag : IsTag (ascii "<string>") = true := by decide
    rw [parseLeaf, hother (ascii "<true/>") _ htag (by decide)]
    simp only [hother (ascii "<false/>") _ htag (by decide), hself _ htag, if_true,
      Bool.false_eq_true, if_false]
  · have htag : IsTag (ascii "<integer>") = true := by decide
    rw [parseLeaf, hother (ascii "<true/>") _ htag (by decide)]
    simp only [hother (ascii "<false/>") _ htag (by decide),
      hother (ascii "<string>") _ htag (by decide),
      hself _ htag, if_true, Bool.false_eq_true, if_false]
  · have htag : IsTag (ascii "<data>") = true := by decide
    rw [parseLeaf, hother (ascii "<true/>") _ htag (by decide)]
    simp only [hother (ascii "<false/>") _ htag (by decide),
      hother (ascii "<string>") _ htag (by decide),
      hother (ascii "<integer>") _ htag (by decide), hother (ascii "<real>") _ htag (by decide),
      hself _ htag, if_true, Bool.false_eq_true, if_false]

/-- **What the parser makes of the lines of a graph.**

**Proof sketch.** Induction over the graph. Texts end at their closing tags (`textUntil_plain`),
and the loops over containers consume one value after another. -/
theorem parse_text {o : CFObject δ} (ho : o.IsGraph) (hnull : o ≠ .null) :
    ParsesText lib sp o := by
  have hgraph := ho
  induction o using CFObject.graphInduction with
  | null => exact absurd rfl hnull
  | real d => exact ho.elim
  | date d => exact ho.elim
  | boolean b =>
    cases b with
    | true =>
      exact parsesText_leaf lib sp (ascii "<true/>") (fun _ => []) (by decide)
        (by decide) (by decide) (fun _ => rfl) (fun _ c => (parseLeaf_text lib c).1) rfl
    | false =>
      exact parsesText_leaf lib sp (ascii "<false/>") (fun _ => []) (by decide)
        (by decide) (by decide) (fun _ => rfl) (fun _ c => (parseLeaf_text lib c).2.1) rfl
  | integer v =>
    have hplain := Spelling.decimal_plain v
    have hint : (strtol (CString.ofBytes (decimal v)) 10).1 = v :=
      strtol_decimal (CString.bytes_ofBytes_of_nulFree hplain.noNul)
    refine parsesText_leaf lib sp (ascii "<integer>")
      (fun _ => decimal v ++ ascii "</integer>") (by decide) (by decide) (by decide)
      (fun depth => by simp [Spelling.text, ascii, byte]) (fun depth c => ?_) rfl
    rw [(parseLeaf_text lib _).2.2.2.1, List.append_assoc, textElement,
      textUntil_plain hplain (by decide)]
    simp only [hint, Option.map_some]
  | string s =>
    have hs : 0 ∉ s := ho
    refine parsesText_leaf lib sp (ascii "<string>")
      (fun _ => sp.escape s ++ ascii "</string>") (by decide) (by decide) (by decide)
      (fun depth => by simp [Spelling.text, ascii, byte]) (fun depth c => ?_) rfl
    rw [(parseLeaf_text lib _).2.2.1, List.append_assoc, textElement,
      textUntil_plain (sp.escape_plain s hs) (by decide)]
    simp only [initWithUTF8String, CString.bytes_ofBytes_of_nulFree hs, Option.map_some]
  | data d =>
    refine parsesText_leaf lib sp (ascii "<data>")
      (fun depth => sp.encode depth d ++ ascii "</data>") (by decide) (by decide)
      (by decide) (fun depth => by simp [Spelling.text, ascii, byte]) (fun depth c => ?_) rfl
    have hplain := sp.encode_plain depth d
    have hdecode : base64Decode (sp.encode depth d) = d := sp.encode_decode depth d
    rw [(parseLeaf_text lib _).2.2.2.2, List.append_assoc, textElement,
      textUntil_plain hplain (by decide)]
    simp only [CString.bytes_ofBytes_of_nulFree hplain.noNul, hdecode, Option.map_some]
  | array xs ih =>
    intro depth lead c fuel hlead hfuel
    have hg := (CFObject.everywhereValues_iff xs).mp ho.2
    have hblank := blank_append hlead (Spelling.blank_appendIndent depth)
    have hcat : lead ++ (sp.text depth (.array xs) ++ c) = (lead ++ appendIndent depth) ++
        (ascii "<array>" ++ (ascii "\n" ++ (sp.textValues (depth + 1) xs ++ (appendIndent depth ++
          (ascii "</array>" ++ (ascii "\n" ++ c)))))) := by
      simp [Spelling.text, ascii, byte]
    rw [Spelling.text] at hfuel
    simp only [List.length_append, show (ascii "<array>\n").length = 8 from rfl,
      show (ascii "</array>\n").length = 9 from rfl] at hfuel
    obtain ⟨fuel, rfl⟩ : ∃ k, fuel = k + 2 := ⟨fuel - 2, by omega⟩
    have htag : IsTag (ascii "<array>") = true := by decide
    have hdict := consume_other htag (show Mismatch (ascii "<dict>") (ascii "<array>") = true
      by decide) (ascii "\n" ++ (sp.textValues (depth + 1) xs ++ (appendIndent depth ++
        (ascii "</array>" ++ (ascii "\n" ++ c)))))
    have hself := consume_self htag (ascii "\n" ++ (sp.textValues (depth + 1) xs ++
      (appendIndent depth ++ (ascii "</array>" ++ (ascii "\n" ++ c)))))
    have hloop := arrayLoop_text lib sp hg (fun x hx hne => ih x hx (hg x hx) hne (hg x hx))
      (depth + 1) [] blank_line (Spelling.blank_appendIndent depth) (ascii "\n" ++ c)
      (show (sp.textValues (depth + 1) xs).length < fuel by omega)
    rw [hcat, parseValue]
    simp only [skipWs_of_isTag hblank htag, peek, hdict, hself, Bool.false_eq_true, if_false,
      if_true, parseArray, Bool.not_true, hloop, readBack, Option.map_map]
    rfl
  | dictionary es ih =>
    intro depth lead c fuel hlead hfuel
    have hg := (CFObject.everywhereEntries_iff es).mp ho.2
    have hblank := blank_append hlead (Spelling.blank_appendIndent depth)
    have hcat : lead ++ (sp.text depth (.dictionary es) ++ c) = (lead ++ appendIndent depth) ++
        (ascii "<dict>" ++ (ascii "\n" ++ (sp.textEntries (depth + 1) es ++ (appendIndent depth ++
          (ascii "</dict>" ++ (ascii "\n" ++ c)))))) := by
      simp [Spelling.text, ascii, byte]
    rw [Spelling.text] at hfuel
    simp only [List.length_append, show (ascii "<dict>\n").length = 7 from rfl,
      show (ascii "</dict>\n").length = 8 from rfl] at hfuel
    obtain ⟨fuel, rfl⟩ : ∃ k, fuel = k + 2 := ⟨fuel - 2, by omega⟩
    have htag : IsTag (ascii "<dict>") = true := by decide
    have hself := consume_self htag (ascii "\n" ++ (sp.textEntries (depth + 1) es ++
      (appendIndent depth ++ (ascii "</dict>" ++ (ascii "\n" ++ c)))))
    have hloop := dictLoop_text lib sp hg (fun e he hne => ih e he (hg e he) hne (hg e he))
      (depth + 1) [] (by simpa using ho.1.1) ho.1.2 blank_line (Spelling.blank_appendIndent depth)
      (ascii "\n" ++ c) (show (sp.textEntries (depth + 1) es).length < fuel by omega)
    rw [hcat, parseValue]
    simp only [skipWs_of_isTag hblank htag, peek, hself, Bool.false_eq_true, if_false,
      if_true, parseDict, Bool.not_true, hloop, readBack, Option.map_map]
    rfl

/-! ## Documents -/

/-- There is no NUL in the lines of a graph. -/
lemma text_nulFree {o : CFObject δ} (ho : o.IsGraph) (depth : ℕ) : 0 ∉ sp.text depth o := by
  have hindent : ∀ depth, 0 ∉ appendIndent depth := fun depth h =>
    absurd (List.eq_of_mem_replicate h) (by decide)
  have happend : ∀ {s t : List UInt8}, 0 ∉ s → 0 ∉ t → 0 ∉ s ++ t := fun hs ht h =>
    (List.mem_append.mp h).elim hs ht
  refine CFObject.isGraph_induction (P := fun o => ∀ depth, 0 ∉ sp.text depth o) ?null ?boolean
    ?integer ?string ?data ?array ?dictionary ho depth
  case null => exact fun _ => List.not_mem_nil
  case boolean =>
    intro b depth
    exact happend (hindent depth) (by cases b <;> decide)
  case integer =>
    intro v depth
    exact happend (happend (happend (hindent depth) (by decide)) (decimal_nulFree v)) (by decide)
  case string =>
    intro s hs depth
    exact happend (happend (happend (hindent depth) (by decide)) (sp.escape_plain s hs).noNul)
      (by decide)
  case data =>
    intro d depth
    exact happend (happend (happend (hindent depth) (by decide)) (sp.encode_plain depth d).noNul)
      (by decide)
  case array =>
    intro xs ih depth
    have hvalues : ∀ depth, 0 ∉ sp.textValues depth xs := by
      intro depth
      induction xs with
      | nil => exact List.not_mem_nil
      | cons x xs ih' =>
        exact happend (ih x List.mem_cons_self depth)
          (ih' fun y hy => ih y (List.mem_cons_of_mem _ hy))
    exact happend (happend (happend (happend (hindent depth) (by decide)) (hvalues _))
      (hindent depth)) (by decide)
  case dictionary =>
    intro es hnodup hnul ih depth
    have hentries : ∀ depth, 0 ∉ sp.textEntries depth es := by
      intro depth
      clear hnodup
      induction es with
      | nil => exact List.not_mem_nil
      | cons e es ih' =>
        obtain ⟨k, v⟩ := e
        have hk : 0 ∉ k := hnul k List.mem_cons_self
        exact happend (happend (happend (happend (happend (hindent depth) (by decide))
          (sp.escape_plain k hk).noNul) (by decide)) (ih (k, v) List.mem_cons_self depth))
          (ih' (fun l hl => hnul l (List.mem_cons_of_mem _ hl))
            fun f hf => ih f (List.mem_cons_of_mem _ hf))
    exact happend (happend (happend (happend (hindent depth) (by decide)) (hentries _))
      (hindent depth)) (by decide)

/-- The document with the lines of an object. -/
def document (o : CFObject δ) : List UInt8 := xmlHeader ++ sp.text 0 o ++ ascii "</plist>\n"

/-- The header up to the `<plist>` tag, in which no other tag with this name starts. -/
lemma exists_xmlHeader : ∃ pre, xmlHeader =
    pre ++ (ascii "<plist" ++ (ascii " version=\"1.0\"" ++ (byte '>' :: ascii "\n"))) ∧
      Avoids (ascii "<plist") pre = true := by
  have htag : ascii "<plist version=\"1.0\">\n" =
      ascii "<plist" ++ (ascii " version=\"1.0\"" ++ (byte '>' :: ascii "\n")) := by
    repeat rw [ascii_ofList]
    rfl
  rw [xmlHeader, htag]
  refine ⟨_, rfl, ?_⟩
  repeat rw [ascii_ofList]
  decide +kernel

/-- There is no NUL in a document around lines that have none. -/
lemma body_nulFree {body : List UInt8} (hbody : 0 ∉ body) :
    0 ∉ xmlHeader ++ body ++ ascii "</plist>\n" := by
  have hheader : xmlHeader.all (· != 0) = true := by
    rw [xmlHeader]
    repeat rw [ascii_ofList]
    decide +kernel
  intro h
  rcases List.mem_append.mp h with h | h
  · rcases List.mem_append.mp h with h | h
    · exact absurd (List.all_eq_true.mp hheader 0 h) (by decide)
    · exact hbody h
  · exact absurd h (by decide)

/-- The reader finds the lines behind the header. -/
lemma propertyListWithData_body {body : List UInt8} (hbody : 0 ∉ body) :
    propertyListWithData lib (xmlHeader ++ body ++ ascii "</plist>\n") = (do
      let result ← parseValue lib (2 * (xmlHeader ++ body ++ ascii "</plist>\n").length + 2)
        (ascii "\n" ++ (body ++ ascii "</plist>\n"))
      .ok (result.map Prod.fst)) := by
  obtain ⟨pre, hheader, havoid⟩ := exists_xmlHeader
  have hcat : xmlHeader ++ body ++ ascii "</plist>\n" = pre ++ (ascii "<plist" ++
      (ascii " version=\"1.0\"" ++ byte '>' :: (ascii "\n" ++ (body ++ ascii "</plist>\n")))) := by
    rw [hheader]
    simp only [List.append_assoc, List.cons_append]
  have hstart : (ascii "<plist" ++ (ascii " version=\"1.0\"" ++ byte '>' :: (ascii "\n" ++
      (body ++ ascii "</plist>\n")))).dropWhile (· != byte '>') =
        byte '>' :: (ascii "\n" ++ (body ++ ascii "</plist>\n")) := by
    rw [← List.append_assoc, List.dropWhile_append_of_pos (by decide),
      List.dropWhile_cons_of_neg (by decide)]
  have hfind := strstr_of_avoids (by decide) havoid (ascii " version=\"1.0\"" ++
      byte '>' :: (ascii "\n" ++ (body ++ ascii "</plist>\n")))
  rw [← hcat] at hfind
  rw [propertyListWithData, CString.bytes_ofBytes_of_nulFree (body_nulFree hbody)]
  simp only [hfind, hstart]

/-- **What the reader makes of a document.** -/
theorem propertyListWithData_text {o : CFObject δ} (ho : o.IsGraph) (hnull : o ≠ .null) :
    propertyListWithData lib (document sp o) = .ok (readBack o) := by
  have hparse := parse_text lib sp ho hnull 0 (ascii "\n") (ascii "</plist>\n")
    (2 * (document sp o).length + 2) blank_line (by
      rw [document]
      simp only [List.length_append]
      omega)
  rw [document] at hparse ⊢
  rw [propertyListWithData_body lib (text_nulFree sp ho 0), hparse, ok_bind, Option.map_map]
  cases readBack o <;> rfl

/-- A document around lines is exported as it is. -/
lemma dataUsingEncoding_body {body : List UInt8} (hbody : 0 ∉ body) :
    dataUsingEncoding (xmlHeader ++ body ++ ascii "</plist>\n") =
      .ok (xmlHeader ++ body ++ ascii "</plist>\n") := by
  have hnul := body_nulFree hbody
  obtain ⟨rest, hrest⟩ : ∃ rest, xmlHeader ++ body ++ ascii "</plist>\n" = byte '<' :: rest :=
    ⟨_, rfl⟩
  rw [hrest] at hnul ⊢
  exact dataUsingEncoding_of_ascii (by decide) hnul

/-- **What the writer produces is the document in its spelling.** -/
theorem dataWithPropertyList_eq {o : CFObject δ} (ho : o.IsGraph) :
    dataWithPropertyList lib o .xmlFormat_v1_0 = .ok (some (document nsSpelling o)) := by
  have hexport := dataUsingEncoding_body (text_nulFree nsSpelling ho 0)
  rw [dataWithPropertyList, if_neg (by decide), writeValue_eq lib ho, ok_bind, hexport, ok_bind,
    document]

/-- A property list is read back as it is. -/
lemma readBack_eq {o : CFObject δ} (ho : o.IsPlist) : readBack o = some o := by
  refine Spelling.plistInduction (P := fun o => readBack o = some o ∧ o ≠ .null) ?boolean ?integer
    ?string ?data ?array ?dictionary ho |>.1
  case boolean => exact fun b => ⟨rfl, by simp⟩
  case integer => exact fun v => ⟨rfl, by simp⟩
  case string => exact fun s _ => ⟨rfl, by simp⟩
  case data => exact fun d => ⟨rfl, by simp⟩
  case array =>
    intro xs ih
    have hvalues : readBackValues xs = some xs := by
      induction xs with
      | nil => rfl
      | cons x xs ih' =>
        obtain ⟨hx, hne⟩ := ih x List.mem_cons_self
        have hxs := ih' fun y hy => ih y (List.mem_cons_of_mem _ hy)
        cases x with
        | null => exact absurd rfl hne
        | _ => simp only [readBackValues, hx, hxs, Option.bind_eq_bind, Option.bind_some]
    exact ⟨by rw [readBack, hvalues]; rfl, by simp⟩
  case dictionary =>
    intro es hnodup hnul ih
    have hentries : readBackEntries es = some es := by
      clear hnodup hnul
      induction es with
      | nil => rfl
      | cons e es ih' =>
        obtain ⟨k, v⟩ := e
        obtain ⟨hv, hne⟩ := ih (k, v) List.mem_cons_self
        have hes := ih' fun f hf => ih f (List.mem_cons_of_mem _ hf)
        have hv' : readBack v = some v := hv
        cases v with
        | null => exact absurd rfl hne
        | _ => simp only [readBackEntries, hv', hes, Option.bind_eq_bind, Option.bind_some]
    exact ⟨by rw [readBack, hentries]; rfl, by simp⟩

end Asteros.Foundation
