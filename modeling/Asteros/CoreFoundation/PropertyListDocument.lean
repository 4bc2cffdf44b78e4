import Asteros.CoreFoundation.PropertyListGrammar

set_option autoImplicit false

/-!
# What the property list reader accepts: documents

A document is accepted exactly when it is a prolog of directives, a `<plist>` tag, the image of a
valid element and the matching close tag; whatever follows is ignored. The result is the value of
the root element.

## Main results

* `readDocument_complete` — the image of a valid document is accepted.
* `createFromXMLData_eq_some_iff` — a value is returned exactly for such images.
-/

namespace Asteros.CoreFoundation

open Asteros.Libc

variable {δ : Type} (strtod : CString → δ) (mutability : MutabilityOptions)

/-- `skipProlog` skips a valid prolog. -/
lemma skipProlog_directives {prolog : List Directive} (hprolog : ∀ p ∈ prolog, p.Valid)
    {lead : List UInt8} (hlead : Blank lead) {b : UInt8} (hquery : b ≠ byte '?')
    (hbang : b ≠ byte '!') (c : Cursor) {fuel : ℕ} (hfuel : prolog.length < fuel) :
    skipProlog fuel (prolog.flatMap Directive.bytes ++ (lead ++ byte '<' :: b :: c)) =
      .ok (byte '<' :: b :: c) := by
  induction prolog generalizing fuel with
  | nil =>
    obtain ⟨fuel, rfl⟩ : ∃ k, fuel = k + 1 := ⟨fuel - 1, by simp at hfuel; omega⟩
    have hws : (lead ++ byte '<' :: b :: c).dropWhile isWs = byte '<' :: b :: c :=
      dropWhile_blank hlead (by decide) _
    have hlong : 1 < (byte '<' :: b :: c).length := by simp
    simp only [List.flatMap_nil, List.nil_append, skipProlog, skipWs_eq, hws, ok_bind, hlong,
      if_true, deref_cons_zero, deref_cons_one, hquery, hbang, or_self, if_false]
  | cons p prolog ih =>
    obtain ⟨fuel, rfl⟩ : ∃ k, fuel = k + 1 := ⟨fuel - 1, by simp at hfuel; omega⟩
    obtain ⟨hplead, hmark, hbody⟩ := hprolog p List.mem_cons_self
    have hrest := ih (fun q hq => hprolog q (List.mem_cons_of_mem _ hq))
      (show prolog.length < fuel by simp at hfuel; omega)
    have hcat : (p :: prolog).flatMap Directive.bytes ++ (lead ++ byte '<' :: b :: c) =
        p.lead ++ byte '<' :: (p.mark :: p.body ++ byte '>' ::
          (prolog.flatMap Directive.bytes ++ (lead ++ byte '<' :: b :: c))) := by
      simp [Directive.bytes]
    have hrun : ∀ x ∈ byte '<' :: (p.mark :: p.body), (x != byte '>') = true := by
      intro x hx
      rcases List.mem_cons.mp hx with rfl | hx
      · rfl
      · rcases List.mem_cons.mp hx with rfl | hx
        · rcases hmark with h | h <;> rw [h] <;> rfl
        · exact run_of_notMem hbody x hx
    have hskip := (takeWhile_run (p := (· != byte '>')) hrun (c := byte '>' ::
      (prolog.flatMap Directive.bytes ++ (lead ++ byte '<' :: b :: c))) (by simp)).2
    rw [List.cons_append] at hskip
    have hlong : 1 < (byte '<' :: (p.mark :: p.body ++ byte '>' ::
        (prolog.flatMap Directive.bytes ++ (lead ++ byte '<' :: b :: c)))).length := by simp
    rw [hcat, skipProlog, skipWs_eq, dropWhile_blank hplead (by decide), ok_bind, if_pos hlong]
    simp only [List.cons_append] at hskip ⊢
    simp only [deref_cons_zero, deref_cons_one, ok_bind, if_true, hmark, skipDirective_eq, hskip,
      List.tail_cons, hrest]

/-- What `skipProlog` has skipped, if something is left. -/
lemma exists_prolog {fuel : ℕ} {x c : Cursor} (h : skipProlog fuel x = .ok c) (hc : c ≠ []) :
    ∃ (prolog : List Directive) (lead : List UInt8), (∀ p ∈ prolog, p.Valid) ∧ Blank lead ∧
      x = prolog.flatMap Directive.bytes ++ (lead ++ c) ∧ c.dropWhile isWs = c := by
  induction fuel generalizing x with
  | zero => cases h
  | succ fuel ih =>
    obtain ⟨lead, hlead, hx⟩ := exists_blank x
    -- the loop ends where whitespace ends
    have hstop : x.dropWhile isWs = c → ∃ (prolog : List Directive) (lead : List UInt8),
        (∀ p ∈ prolog, p.Valid) ∧ Blank lead ∧
          x = prolog.flatMap Directive.bytes ++ (lead ++ c) ∧ c.dropWhile isWs = c := by
      rintro rfl
      exact ⟨[], lead, by simp, hlead, hx, List.dropWhile_idempotent isWs x⟩
    simp only [skipProlog, skipWs_eq, ok_bind] at h
    cases hd : x.dropWhile isWs with
    | nil =>
      rw [hd] at h hstop
      cases h
      exact hstop rfl
    | cons b t =>
    cases t with
    | nil =>
      rw [hd] at h hstop
      cases h
      exact hstop rfl
    | cons b' d =>
      have hlong : 1 < (b :: b' :: d).length := by simp
      rw [hd] at h hstop hx
      simp only [hlong, if_true, deref_cons_zero, deref_cons_one, ok_bind, skipDirective_eq] at h
      split_ifs at h with hb hb'
      · have hlt : (b != byte '>') = true := by rw [hb]; rfl
        have hmark : (b' != byte '>') = true := by rcases hb' with rfl | rfl <;> rfl
        rw [List.dropWhile_cons_of_pos (p := (· != byte '>')) hlt,
          List.dropWhile_cons_of_pos (p := (· != byte '>')) hmark] at h
        have hgt : byte '>' ∈ d := by
          by_contra hnot
          have hnil : d.dropWhile (· != byte '>') = [] :=
            List.dropWhile_eq_nil_iff.mpr (run_of_notMem hnot)
          rw [hnil, List.tail_nil] at h
          obtain ⟨_, _, -, -, heq, -⟩ := ih h
          exact hc (List.append_eq_nil_iff.mp (List.append_eq_nil_iff.mp heq.symm).2).2
        obtain ⟨prolog, lead', hprolog, hlead', heq, hcws⟩ := ih h
        have hbody : byte '>' ∉ d.takeWhile (· != byte '>') := fun hmem => by
          simpa using List.mem_takeWhile_imp hmem
        have hsplit : d.takeWhile (· != byte '>') ++ byte '>' ::
            (d.dropWhile (· != byte '>')).tail = d := by
          have hsp := List.takeWhile_append_dropWhile (p := (· != byte '>')) (l := d)
          cases hdd : d.dropWhile (· != byte '>') with
          | nil => exact absurd (List.dropWhile_eq_nil_iff.mp hdd _ hgt) (by simp)
          | cons g e =>
            have hhead := List.head?_dropWhile_not (· != byte '>') d
            rw [hdd] at hhead hsp
            have hg : g = byte '>' := by simpa using hhead
            subst hg
            exact hsp
        refine ⟨⟨lead, b', d.takeWhile (· != byte '>')⟩ :: prolog, lead', ?_, hlead', ?_, hcws⟩
        · intro q hq
          rcases List.mem_cons.mp hq with rfl | hq
          · exact ⟨hlead, hb', hbody⟩
          · exact hprolog q hq
        · rw [hx, hb]
          conv_lhs => rw [← hsplit, heq]
          simp [Directive.bytes]
      · cases h
        exact hstop rfl
      · cases h
        exact hstop rfl

/-- A named tag starts with the first character of its name. -/
lemma OpenTag.Named.exists_cons {t : OpenTag} {b : UInt8} {n : List UInt8}
    (h : t.Named (b :: n)) : ∃ m, t.name = b :: m := by
  have htake : t.name.takeWhile (· ≠ 0) = b :: n := h
  cases hm : t.name with
  | nil => simp [hm] at htake
  | cons b' m =>
    refine ⟨m, ?_⟩
    by_cases hb : b' = 0
    · simp [hm, hb] at htake
    · rw [hm, List.takeWhile_cons_of_pos (by simpa using hb)] at htake
      rw [(List.cons.inj htake).1]

/-- **The image of a valid document is read as the value of its root.** -/
lemma readDocument_complete {d : Document} (hd : d.Valid) :
    ∃ n, ∀ fuel, n ≤ fuel → readDocument strtod mutability fuel d.bytes =
      .ok (some (d.root.value strtod), ⟨d.tail, []⟩) := by
  obtain ⟨n, hn⟩ := parseValue_complete strtod mutability hd.root
  refine ⟨max n (d.prolog.length + 1), fun fuel hfuel => ?_⟩
  obtain ⟨name, hname⟩ := OpenTag.Named.exists_cons (b := byte 'p') (n := ascii "list") hd.named
  have htag : d.tag.bytes ++ (d.root.bytes ++ (d.close.bytes (ascii "plist") ++ d.tail)) =
      byte '<' :: byte 'p' :: (name ++ d.tag.rest ++ byte '>' :: (d.root.bytes ++
        (d.close.bytes (ascii "plist") ++ d.tail))) := by
    simp [OpenTag.bytes, hname]
  have hprolog : skipProlog fuel d.bytes = .ok (d.tag.bytes ++ (d.root.bytes ++
      (d.close.bytes (ascii "plist") ++ d.tail))) := by
    rw [Document.bytes, List.append_assoc d.lead, htag]
    exact skipProlog_directives hd.prolog hd.lead (by decide) (by decide) _ (by omega)
  obtain ⟨c, slash, hws, hread⟩ := scan_openTag (show Blank [] by simp [Blank]) hd.tag
    (d.root.bytes ++ (d.close.bytes (ascii "plist") ++ d.tail))
  have hclose : expectCloseTag (d.close.bytes (ascii "plist") ++ d.tail) (ascii "plist") =
      .ok (true, d.tail) := expectCloseTag_eq_true_iff.mpr ⟨_, hd.close, rfl⟩
  have hnamed : (CString.ofBytes d.tag.name).bytes = ascii "plist" := hd.named
  rw [List.nil_append] at hws
  simp only [readDocument, hprolog, ok_bind, skipWs_eq, hws, atByte_eq, List.head?_cons, BEq.rfl,
    Bool.not_true, Bool.false_eq_true, if_false, advance_cons_one, hread, hnamed, ne_eq,
    not_true_eq_false, hn fuel (by omega), hclose]

/-- **A document that is accepted is the image of a valid one.** -/
lemma readDocument_sound {fuel : ℕ} {x : List UInt8} {v : CFObject δ} {st : ReadState}
    (h : readDocument strtod mutability fuel x = .ok (some v, st)) :
    ∃ d : Document, d.Valid ∧ d.bytes = x ∧ d.root.value strtod = v := by
  unfold readDocument at h
  cases hp : skipProlog fuel x with
  | error e => simp only [hp] at h; cases h
  | ok c =>
    simp only [hp, ok_bind, skipWs_eq, atByte_eq] at h
    cases hc : c.dropWhile isWs with
    | nil => rw [hc] at h; cases h
    | cons b t =>
      rw [hc] at h
      by_cases hb : b = byte '<'
      · subst hb
        obtain ⟨slash, htag⟩ := readTagName_eq t
        simp only [List.head?_cons, BEq.rfl, Bool.not_true, Bool.false_eq_true, if_false,
          advance_cons_one, ok_bind, htag] at h
        by_cases hplist : (CString.ofBytes (t.takeWhile isNameChar)).bytes ≠ ascii "plist"
        · rw [if_pos hplist] at h
          cases h
        · rw [if_neg hplist] at h
          cases hv : parseValue strtod mutability fuel ⟨afterTag t, []⟩ with
          | error e => simp only [hv] at h; cases h
          | ok r =>
            obtain ⟨val, st₁⟩ := r
            simp only [hv, ok_bind] at h
            cases val with
            | none => cases h
            | some val =>
              obtain ⟨closed, c', hclose, -⟩ := exists_expectCloseTag st₁.cursor (ascii "plist")
              simp only [hclose, ok_bind] at h
              cases closed with
              | false => cases h
              | true =>
                cases h
                obtain ⟨close, hcl, hcat⟩ := expectCloseTag_eq_true_iff.mp hclose
                have hleft : st₁.cursor ≠ [] := by
                  rw [hcat]
                  simp [CloseTag.bytes]
                obtain ⟨e, he, hbody, rfl⟩ :=
                  (parse_sound strtod mutability fuel).1 _ _ _ hv hleft
                have hbody' : afterTag t = e.bytes ++ st₁.cursor := hbody
                have hafter : afterTag t ≠ [] := by
                  rw [hbody']
                  simp [hleft]
                obtain ⟨lead, tag, hlead, htag', hname, hcc⟩ :=
                  exists_openTag_of_dropWhile hc hafter
                have hne : c ≠ [] := by
                  rintro rfl
                  cases hc
                obtain ⟨prolog, lead', hprolog, hlead', hx, hcws⟩ := exists_prolog hp hne
                refine ⟨⟨prolog, lead' ++ lead, tag, e, close, c'⟩, ⟨hprolog, ?_, htag', ?_, he,
                  hcl⟩, ?_, rfl⟩
                · intro b hb
                  rcases List.mem_append.mp hb with hb | hb
                  · exact hlead' b hb
                  · exact hlead b hb
                · rw [OpenTag.Named, hname]
                  exact not_not.mp hplist
                · rw [hx, hcc, hbody', hcat, Document.bytes]
                  simp only [List.append_assoc]
      · have hne : (some b == some (byte '<')) = false := by simpa using hb
        simp only [List.head?_cons, hne, Bool.not_false, if_true] at h
        cases h

/-- **The reader returns a value exactly on the images of valid documents**, and it is the value
of the root.

**Proof sketch.** Completeness holds for enough fuel, and the reader has one outcome for all
fuels from its own bound on (`createFromXMLData_safe`). -/
theorem createFromXMLData_eq_some_iff (x : List UInt8) (v : CFObject δ) :
    (∃ st, cfPropertyListCreateFromXMLData strtod mutability x = .ok (some v, st)) ↔
      ∃ d : Document, d.Valid ∧ d.bytes = x ∧ d.root.value strtod = v := by
  constructor
  · rintro ⟨st, h⟩
    exact readDocument_sound strtod mutability h
  · rintro ⟨d, hd, rfl, rfl⟩
    obtain ⟨n, hn⟩ := readDocument_complete strtod mutability hd
    obtain ⟨result, st, hsafe, -⟩ :=
      createFromXMLData_safe (δ := δ) strtod mutability d.bytes
    have h₁ := hn (max n (readFuel d.bytes.length)) (by omega)
    have h₂ := hsafe (max n (readFuel d.bytes.length)) (by omega)
    rw [h₁] at h₂
    cases h₂
    exact ⟨_, hsafe _ le_rfl⟩

end Asteros.CoreFoundation
