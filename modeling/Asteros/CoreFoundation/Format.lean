import Asteros.CoreFoundation.Strings
import Asteros.Libc.FormatIntegers

set_option autoImplicit false

/-!
# Formatted strings

The whole of `CFStringCreateWithFormatAndArguments`: with objects among the arguments, and with what
is left of these. The function reads each conversion itself and has `vsnprintf` read it once more.
Both agree on flags, width and length modifiers, but for the width `*`, which the function does not
know.

## Main definitions

* `formatString` — the function.
* `Segment` — a part of a format, with its arguments.
* `Segment.output` — the text that belongs to it.
* `Segment.Fits` — a part that gets through the arrays of the function.

## Main results

* `formatString_iff` — when a formatted string is complete.
-/

namespace Asteros.CoreFoundation

open Asteros.Libc

/-! ## The function -/

/-- An argument: one that `vsnprintf` reads, or an object, of which the description is what counts. -/
inductive FormatArg where
  | value (a : VaArg)
  | object (description : Option (List UInt8))

/-- The arguments that can be read before an object comes, and the others. -/
def splitValues : List FormatArg → List VaArg × List FormatArg
  | [] => ([], [])
  | .value a :: args => (a :: (splitValues args).1, (splitValues args).2)
  | .object description :: args => ([], .object description :: args)

/-- `va_arg(args, CFTypeRef)`; `none` is a read of something that is no object. -/
def vaObject : List FormatArg → Option (Option (List UInt8) × List FormatArg)
  | .object description :: args => some (description, args)
  | _ => none

/-- One conversion, and the arguments behind it. -/
def formatStep (mods : List UInt8) (conv : UInt8) (args : List FormatArg) :
    Except Fault (List UInt8 × List FormatArg) :=
  if conv = byte '@' then
    match vaObject args with
    | some (description, args) => .ok (description.getD (ascii "(null)"), args)
    | none => .error .outOfBounds
  else do
    let (text, values) ← formatConversion mods conv (splitValues args).1
    .ok (text, values.map .value ++ (splitValues args).2)

/-- The loop over the format, which every round shortens. -/
def formatStringLoop : ℕ → List UInt8 → List FormatArg →
    Except Fault (List UInt8 × List FormatArg)
  | 0, _, args => .ok ([], args)
  | _ + 1, [], args => .ok ([], args)
  | fuel + 1, b :: p, args =>
    if b ≠ byte '%' then do
      let (rest, args) ← formatStringLoop fuel p args
      .ok (b :: rest, args)
    else match conversion p with
      | none => .ok ([], args)
      | some (mods, conv, p) => do
        let (text, args) ← formatStep mods conv args
        let (rest, args) ← formatStringLoop fuel p args
        .ok (text ++ rest, args)

/-- `CFStringCreateWithFormatAndArguments`, for the bytes of the format, which is read up to a NUL:
the bytes of the new string, and the arguments that are left. -/
def formatString (format : List UInt8) (args : List FormatArg) :
    Except Fault (List UInt8 × List FormatArg) :=
  formatStringLoop ((CString.ofBytes format).strlen + 1) (CString.ofBytes format).bytes args

/-- Arguments without an object. -/
lemma splitValues_map (values : List VaArg) (rest : List FormatArg) :
    splitValues (values.map .value ++ rest) =
      (values ++ (splitValues rest).1, (splitValues rest).2) := by
  induction values with
  | nil => rfl
  | cons a values ih => rw [List.map_cons, List.cons_append, splitValues, ih]; rfl

/-- The arguments in two parts. -/
lemma splitValues_eq (args : List FormatArg) :
    (splitValues args).1.map .value ++ (splitValues args).2 = args := by
  induction args with
  | nil => rfl
  | cons a args ih =>
    cases a with
    | value a => rw [splitValues, List.map_cons, List.cons_append, ih]
    | object description => rfl

/-! ## Formats -/

/-- The length modifiers that `vformat` reads, of which there may be any number. -/
inductive Modifier where
  | l
  | z
  | h

/-- The character of a length modifier. -/
def Modifier.char : Modifier → UInt8
  | .l => byte 'l'
  | .z => byte 'z'
  | .h => byte 'h'

/-- A conversion with its argument. -/
inductive Converted where
  | integer (c : Conversion) (w : BitVec 64)
  | char (w : BitVec 64)
  | string (s : Option CString)
  | pointer (w : BitVec 64)

/-- The character of a conversion. -/
def Converted.letter : Converted → UInt8
  | .integer c _ => c.char
  | .char _ => byte 'c'
  | .string _ => byte 's'
  | .pointer _ => byte 'p'

/-- The argument of a conversion. -/
def Converted.arg : Converted → VaArg
  | .integer _ w | .char w | .pointer w => .word w
  | .string s => .str s

/-- A conversion specification with its arguments. -/
structure FormatSpec where
  /-- The flags, in any order and number. -/
  flags : List Flag
  /-- The width. -/
  width : Width
  /-- The length modifiers. -/
  modifiers : List Modifier
  /-- The conversion. -/
  converted : Converted

namespace FormatSpec

variable (s : FormatSpec)

/-- What stands between the `%` and the conversion. -/
def front : List UInt8 :=
  s.flags.map Flag.char ++ (s.width.text ++ s.modifiers.map Modifier.char)

/-- The text of a specification. -/
def text : List UInt8 := byte '%' :: (s.front ++ [s.converted.letter])

/-- Its arguments. -/
def args : List VaArg := s.width.args ++ [s.converted.arg]

/-- The full text of the conversion: what `vformat` puts out for it where there is room. -/
def output : List UInt8 := (expansion (CString.ofBytes s.text) s.args).getD []

/-- A specification that gets through `miniFmt[32]` and `tmp[512]`: it has no `*`, at most 31
characters, and a text of at most 511 bytes, and it is no `%c` of a NUL. -/
def Fits : Prop :=
  s.width.args = [] ∧ s.text.length ≤ 31 ∧ s.output.length ≤ 511 ∧
    ∀ w, s.converted = .char w → w.truncate 8 ≠ 0

end FormatSpec

/-- A part of a format with its arguments. -/
inductive Segment where
  | literal (text : List UInt8) (h : byte '%' ∉ text)
  | percent
  | object (description : Option (List UInt8))
  | spec (s : FormatSpec)

namespace Segment

/-- What it is in the format. -/
def text : Segment → List UInt8
  | .literal text _ => text
  | .percent => ascii "%%"
  | .object _ => ascii "%@"
  | .spec s => s.text

/-- Its arguments. -/
def args : Segment → List FormatArg
  | .literal _ _ | .percent => []
  | .object description => [.object description]
  | .spec s => s.args.map .value

/-- Its full text in the new string. -/
def output : Segment → List UInt8
  | .literal text _ => text
  | .percent => ascii "%"
  | .object description => description.getD (ascii "(null)")
  | .spec s => s.output

/-- A part that gets through the arrays of the function; the format is read up to a NUL. -/
def Fits : Segment → Prop
  | .literal text _ => 0 ∉ text
  | .percent | .object _ => True
  | .spec s => s.Fits

end Segment

/-! ## Reading a specification -/

/-- The flags that `vformat` reads. -/
def isFlag (b : UInt8) : Bool := b == byte '0' || b == byte '-'

/-- The length modifiers that `vformat` reads. -/
def isModifier (b : UInt8) : Bool := b == byte 'l' || b == byte 'z' || b == byte 'h'

/-- What the flag loop leaves. -/
lemma flags_rest (p : List UInt8) (z l : Bool) : (flags p z l).2.2 = p.dropWhile isFlag := by
  induction p generalizing z l with
  | nil => rfl
  | cons b p ih =>
    rw [flags]
    split_ifs with h0 hm
    · rw [ih, List.dropWhile_cons_of_pos (by simp [isFlag, h0])]
    · rw [ih, List.dropWhile_cons_of_pos (by simp [isFlag, hm])]
    · rw [List.dropWhile_cons_of_neg (by simp [isFlag, h0, hm])]

/-- What the digit loop leaves. -/
lemma widthDigits_rest (p : List UInt8) (w : ℤ) : (widthDigits p w).2 = p.dropWhile isdigit := by
  induction p generalizing w with
  | nil => rfl
  | cons b p ih =>
    rw [widthDigits]
    split_ifs with h
    · rw [ih, List.dropWhile_cons_of_pos h]
    · rw [List.dropWhile_cons_of_neg h]

/-- What the loop over the length modifiers leaves. -/
lemma lengthModifiers_rest (p : List UInt8) (n : ℕ) :
    (lengthModifiers p n).2 = p.dropWhile isModifier := by
  induction p generalizing n with
  | nil => rfl
  | cons b p ih =>
    rw [lengthModifiers]
    split_ifs with hl hzh
    · rw [ih, List.dropWhile_cons_of_pos (by simp [isModifier, hl])]
    · rw [ih, List.dropWhile_cons_of_pos]
      obtain h | h := hzh <;> simp [isModifier, h]
    · rw [List.dropWhile_cons_of_neg]
      rw [not_or] at hzh
      simp [isModifier, hl, hzh]

/-- **Without a `*`, what `vformat` reads of a specification does not depend on the arguments**, and
takes none. -/
lemma directive_of_head {p : List UInt8} (h : (p.dropWhile isFlag).head? ≠ some (byte '*')) :
    ∃ d, ∀ ap, directive p ap =
      some (d, ((p.dropWhile isFlag).dropWhile isdigit).dropWhile isModifier, ap) := by
  have hflags := flags_rest p false false
  rcases hparts : flags p false false with ⟨z, l, q⟩
  rw [hparts] at hflags
  dsimp only at hflags
  subst hflags
  cases hq : p.dropWhile isFlag with
  | nil =>
    refine ⟨⟨z, l, 0, 0⟩, fun ap => ?_⟩
    rw [directive, hparts, hq]
    rfl
  | cons b rest =>
    have hstar : b ≠ byte '*' := by
      rw [hq] at h
      simpa using h
    refine ⟨⟨z, l, (widthDigits (b :: rest) 0).1,
      (lengthModifiers (widthDigits (b :: rest) 0).2 0).1⟩, fun ap => ?_⟩
    rw [directive, hparts, hq]
    simp only [if_neg hstar, ← widthDigits_rest (b :: rest) 0, ← lengthModifiers_rest _ 0]

/-- Flags, digits and length modifiers, one after the other. -/
def IsFront (q : List UInt8) : Prop :=
  ∃ a b c, q = a ++ (b ++ c) ∧ (∀ x ∈ a, isFlag x = true) ∧ (∀ x ∈ b, isdigit x = true) ∧
    ∀ x ∈ c, isModifier x = true

/-- A start of these is of the same form. -/
lemma IsFront.take {q : List UInt8} (h : IsFront q) (n : ℕ) : IsFront (q.take n) := by
  obtain ⟨a, b, c, rfl, ha, hb, hc⟩ := h
  refine ⟨a.take n, b.take (n - a.length), c.take (n - a.length - b.length), ?_,
    fun x hx => ha x (List.mem_of_mem_take hx), fun x hx => hb x (List.mem_of_mem_take hx),
    fun x hx => hc x (List.mem_of_mem_take hx)⟩
  rw [List.take_append, List.take_append]

/-- What stands behind flags, digits and length modifiers is left by loops over them: loops that know
these flags and modifiers, and that do not read on in what stands behind. -/
lemma dropWhile_front (flag modifier : UInt8 → Bool) {q t : List UInt8} (h : IsFront q)
    (hflag : ∀ x, isFlag x = true → flag x = true)
    (hmodifier : ∀ x, isModifier x = true →
      flag x = false ∧ isdigit x = false ∧ modifier x = true)
    (ht : ∀ x, t.head? = some x → flag x = false ∧ isdigit x = false ∧ modifier x = false) :
    ∃ c, (∀ x ∈ c, isModifier x = true) ∧
      ((q ++ t).dropWhile flag).dropWhile isdigit = c ++ t ∧ (c ++ t).dropWhile modifier = t := by
  obtain ⟨a, b, c, rfl, ha, hb, hc⟩ := h
  have hstop : ∀ x, (c ++ t).head? = some x → flag x = false ∧ isdigit x = false := by
    intro x hx
    cases c with
    | nil => exact ⟨(ht x hx).1, (ht x hx).2.1⟩
    | cons y c =>
      obtain rfl := Option.some.inj hx
      have hy := hmodifier y (hc y List.mem_cons_self)
      exact ⟨hy.1, hy.2.1⟩
  have hkeep : ∀ f : UInt8 → Bool, (∀ x, (c ++ t).head? = some x → f x = false) →
      (c ++ t).dropWhile f = c ++ t := by
    intro f hf
    cases hct : c ++ t with
    | nil => rfl
    | cons x rest =>
      rw [hct] at hf
      rw [List.dropWhile_cons_of_neg]
      simp [hf x rfl]
  have hdigits : ∀ b : List UInt8, (∀ x ∈ b, isdigit x = true) →
      ((b ++ (c ++ t)).dropWhile flag).dropWhile isdigit = c ++ t := by
    intro b
    induction b with
    | nil =>
      intro _
      rw [List.nil_append, hkeep flag fun x hx => (hstop x hx).1,
        hkeep isdigit fun x hx => (hstop x hx).2]
    | cons x b ih =>
      intro hb
      have hrest := fun y hy => hb y (List.mem_cons_of_mem x hy)
      cases hx : flag x with
      | true =>
        rw [List.cons_append, List.dropWhile_cons_of_pos hx]
        exact ih hrest
      | false =>
        rw [List.cons_append, List.dropWhile_cons_of_neg (by simp [hx]), ← List.cons_append,
          List.dropWhile_append_of_pos hb, hkeep isdigit fun y hy => (hstop y hy).2]
  refine ⟨c, hc, ?_, ?_⟩
  · rw [List.append_assoc, List.append_assoc,
      List.dropWhile_append_of_pos fun x hx => hflag x (ha x hx)]
    exact hdigits b hb
  · rw [List.dropWhile_append_of_pos fun x hx => (hmodifier x (hc x hx)).2.2]
    cases t with
    | nil => rfl
    | cons x t => rw [List.dropWhile_cons_of_neg (by simp [(ht x rfl).2.2])]

/-- The bytes that are modifiers. -/
lemma of_isModifier {x : UInt8} (h : isModifier x = true) :
    x = byte 'l' ∨ x = byte 'z' ∨ x = byte 'h' := by
  simpa [isModifier, or_assoc] using h

/-- The bytes that are flags. -/
lemma of_isFlag {x : UInt8} (h : isFlag x = true) : x = byte '0' ∨ x = byte '-' := by
  simpa [isFlag] using h

/-- A byte that neither reader takes for a part of what stands before the conversion. -/
def IsConversion (conv : UInt8) : Prop :=
  (ascii "-+ #0").contains conv = false ∧ isdigit conv = false ∧ conv ≠ byte '.' ∧
    (ascii "lhzjtL").contains conv = false

/-- **The function reads a specification as it was written.** -/
lemma conversion_front {q : List UInt8} (h : IsFront q) {conv : UInt8} (hconv : IsConversion conv)
    (rest : List UInt8) : conversion (q ++ conv :: rest) = some (q, conv, rest) := by
  obtain ⟨c, hc, hdrop, hmods⟩ := dropWhile_front (t := conv :: rest)
    (ascii "-+ #0").contains (ascii "lhzjtL").contains h
    (by intro x hx; obtain rfl | rfl := of_isFlag hx <;> decide)
    (by intro x hx; obtain rfl | rfl | rfl := of_isModifier hx <;> decide)
    (by intro x hx; obtain rfl := Option.some.inj hx; exact ⟨hconv.1, hconv.2.1, hconv.2.2.2⟩)
  have hdot : (c ++ conv :: rest).head? ≠ some (byte '.') := by
    cases c with
    | nil => simpa using hconv.2.2.1
    | cons x c =>
      have hx := of_isModifier (hc x List.mem_cons_self)
      simp only [List.cons_append, List.head?_cons, ne_eq, Option.some.injEq]
      obtain rfl | rfl | rfl := hx <;> decide
  unfold conversion
  dsimp only
  rw [hdrop, if_neg hdot, hmods]
  simp

/-- **`vformat` reads a specification as it was written**, also when it ends before its conversion. -/
lemma directive_front {q t : List UInt8} (h : IsFront q)
    (ht : ∀ x, t.head? = some x → IsConversion x ∧ x ≠ byte '*') :
    ∃ d, ∀ ap, directive (q ++ t) ap = some (d, t, ap) := by
  have hstop : ∀ x, t.head? = some x →
      isFlag x = false ∧ isdigit x = false ∧ isModifier x = false := by
    intro x hx
    obtain ⟨⟨hflag, hdigit, -, hmod⟩, -⟩ := ht x hx
    refine ⟨?_, hdigit, ?_⟩
    · by_contra hnot
      obtain rfl | rfl := of_isFlag (by simpa using hnot) <;> exact absurd hflag (by decide)
    · by_contra hnot
      obtain rfl | rfl | rfl := of_isModifier (by simpa using hnot) <;>
        exact absurd hmod (by decide)
  obtain ⟨c, hc, hdrop, hmods⟩ := dropWhile_front isFlag isModifier h (fun _ hx => hx)
    (by intro x hx; obtain rfl | rfl | rfl := of_isModifier hx <;> decide) hstop
  have hhead : ((q ++ t).dropWhile isFlag).head? ≠ some (byte '*') := by
    intro hstar
    obtain ⟨rest, hrest⟩ := List.head?_eq_some_iff.mp hstar
    rw [hrest, List.dropWhile_cons_of_neg (by decide)] at hdrop
    cases c with
    | nil => exact (ht _ (by rw [← List.nil_append t, ← hdrop, List.head?_cons])).2 rfl
    | cons x c =>
      obtain rfl : byte '*' = x := (List.cons.inj hdrop).1
      exact absurd (hc _ List.mem_cons_self) (by decide)
  obtain ⟨d, hd⟩ := directive_of_head hhead
  refine ⟨d, fun ap => ?_⟩
  rw [hd, hdrop, hmods]

/-! ## Texts without a NUL -/

/-- There is no NUL among the digits of a number. -/
lemma zero_notMem_numbuf {digits : ℕ → UInt8} {base : ℕ} (hbase : 1 < base) (hle : base ≤ 16)
    (hdigits : ∀ d < 16, digits d ≠ 0) (n : ℕ) : 0 ∉ numbuf digits base n := by
  unfold numbuf
  split_ifs with h
  · simpa using (hdigits 0 (by decide)).symm
  · intro hmem
    obtain ⟨d, hd, hzero⟩ := List.mem_map.mp hmem
    exact hdigits d (lt_of_lt_of_le (Nat.digits_lt_base hbase hd) hle) hzero

/-- There is no NUL in padding. -/
lemma zero_notMem_padding (d : Libc.Directive) (len : ℕ) : 0 ∉ d.padding len := by
  intro hmem
  have hzero := (List.mem_replicate.mp hmem).2
  split_ifs at hzero <;> exact absurd hzero (by decide)

/-- There is no NUL in the text of a signed conversion. -/
lemma zero_notMem_signedText (d : Libc.Directive) (v : BitVec 64) : 0 ∉ signedText d v := by
  rw [signedText, List.mem_append, not_or]
  exact ⟨zero_notMem_padding d _, decimal_nulFree v⟩

/-- There is no NUL in the text of an unsigned conversion. -/
lemma zero_notMem_unsignedText (d : Libc.Directive) (conv : UInt8) (uv : ℕ) :
    0 ∉ unsignedText d conv uv := by
  have hlower : ∀ d < 16, lowerDigit d ≠ 0 := by decide
  have hupper : ∀ d < 16, upperDigit d ≠ 0 := by decide
  unfold unsignedText
  rw [List.mem_append, not_or, List.mem_reverse]
  refine ⟨zero_notMem_padding d _, zero_notMem_numbuf ?_ ?_ ?_ uv⟩
  · split_ifs <;> decide
  · split_ifs <;> decide
  · split_ifs
    · exact hupper
    · exact hlower

/-- There is no NUL in the text of a string. -/
lemma zero_notMem_stringText (d : Libc.Directive) (s : Option CString) : 0 ∉ stringText d s := by
  have hspaces : ∀ n, (0 : UInt8) ∉ List.replicate n (byte ' ') := fun n hmem =>
    absurd (List.mem_replicate.mp hmem).2 (by decide)
  have hnull : (0 : UInt8) ∉ ascii "(null)" := by decide
  unfold stringText
  cases s with
  | none => split_ifs <;> simp [hspaces, hnull]
  | some s => split_ifs <;> simp [hspaces, s.nulFree]

/-- There is no NUL in the text of a pointer. -/
lemma zero_notMem_pointerText (n : ℕ) :
    0 ∉ ascii "0x" ++ (numbuf lowerDigit 16 n).reverse := by
  have hlower : ∀ d < 16, lowerDigit d ≠ 0 := by decide
  rw [List.mem_append, not_or, List.mem_reverse]
  exact ⟨by decide, zero_notMem_numbuf (by decide) (le_refl 16) hlower n⟩

/-- The character that `%c` puts out is NUL exactly if the lowest byte of its argument is. -/
lemma charText_eq_zero_iff (w : BitVec 64) :
    UInt8.ofNat ((w.truncate 32).signExtend 64).toNat = 0 ↔ w.truncate 8 = 0 := by
  have hlow : ((w.truncate 32).signExtend 64).truncate 8 = w.truncate 8 := by
    apply BitVec.eq_of_getLsbD_eq
    intro i hi
    have h64 : i < 64 := by omega
    have h32 : i < 32 := by omega
    simp only [BitVec.truncate_eq_setWidth, BitVec.getLsbD_setWidth, BitVec.getLsbD_signExtend, hi,
      h64, h32, decide_true, Bool.true_and, if_true]
  rw [← hlow, ← UInt8.toNat_inj, ← BitVec.toNat_inj]
  simp

/-! ## Single conversions -/

/-- **A conversion takes its argument** and puts out a text, with a NUL in it only for a `%c` of it. -/
lemma conversion_letter (d : Libc.Directive) (c : Converted) :
    ∃ t, (∀ more, Libc.conversion d c.letter (c.arg :: more) = some (t, more)) ∧
      (0 ∈ t ↔ ∃ w, c = .char w ∧ w.truncate 8 = 0) := by
  cases c with
  | integer c w =>
    by_cases hsigned : c.signed = true
    · obtain ⟨-, -, hchar⟩ := Conversion.of_signed hsigned
      refine ⟨signedText d (if d.isLong ≠ 0 then w else (w.truncate 32).signExtend 64), ?_, ?_⟩
      · intro more
        rw [Libc.conversion, Converted.letter, if_pos hchar]
        split_ifs <;> rfl
      · simp [zero_notMem_signedText]
    · obtain ⟨-, -, hnot, hchar⟩ := Conversion.of_unsigned (Bool.eq_false_iff.mpr hsigned)
      refine ⟨unsignedText d c.char (if d.isLong ≠ 0 then w else
        (w.truncate 32).zeroExtend 64).toNat, ?_, ?_⟩
      · intro more
        rw [Libc.conversion, Converted.letter, if_neg hnot, if_pos hchar]
        split_ifs <;> rfl
      · simp [zero_notMem_unsignedText]
  | char w =>
    refine ⟨[UInt8.ofNat ((w.truncate 32).signExtend 64).toNat], fun more => rfl, ?_⟩
    have hzero := charText_eq_zero_iff w
    simp only [List.mem_singleton, Converted.char.injEq, exists_eq_left']
    rw [eq_comm]
    exact hzero
  | string s => exact ⟨stringText d s, fun more => rfl, by simp [zero_notMem_stringText]⟩
  | pointer w =>
    refine ⟨_, fun more => rfl, ?_⟩
    have hnot := zero_notMem_pointerText w.toNat
    simpa using hnot

/-- What `va_arg` takes is one argument. -/
lemma va_takes (ap : List VaArg) :
    (∀ r, vaLong ap = some r → ap.length = r.2.length + 1) ∧
    (∀ r, vaInt ap = some r → ap.length = r.2.length + 1) ∧
    (∀ r, vaUnsigned ap = some r → ap.length = r.2.length + 1) ∧
    ∀ r, vaStr ap = some r → ap.length = r.2.length + 1 := by
  cases ap with
  | nil => refine ⟨?_, ?_, ?_, ?_⟩ <;> exact fun r hr => by cases hr
  | cons a ap =>
    cases a with
    | word w =>
      refine ⟨?_, ?_, ?_, fun r hr => by cases hr⟩ <;>
        exact fun r hr => by obtain rfl := Option.some.inj hr; rfl
    | str s =>
      refine ⟨?_, ?_, ?_, fun r hr => by obtain rfl := Option.some.inj hr; rfl⟩ <;>
        exact fun r hr => by cases hr

/-- No conversion takes more than one argument. -/
lemma conversion_takes {d : Libc.Directive} {conv : UInt8} {ap left : List VaArg} {t : List UInt8}
    (h : Libc.conversion d conv ap = some (t, left)) : ap.length ≤ left.length + 1 := by
  obtain ⟨hlong, hint, hunsigned, hstr⟩ := va_takes ap
  unfold Libc.conversion at h
  split_ifs at h
  · obtain ⟨r, hr, heq⟩ := Option.bind_eq_some_iff.mp h
    obtain ⟨-, rfl⟩ := Prod.mk.inj (Option.some.inj heq)
    exact (hlong r hr).le
  · obtain ⟨r, hr, heq⟩ := Option.bind_eq_some_iff.mp h
    obtain ⟨-, rfl⟩ := Prod.mk.inj (Option.some.inj heq)
    exact (hint r hr).le
  · obtain ⟨r, hr, heq⟩ := Option.bind_eq_some_iff.mp h
    obtain ⟨-, rfl⟩ := Prod.mk.inj (Option.some.inj heq)
    exact (hlong r hr).le
  · obtain ⟨r, hr, heq⟩ := Option.bind_eq_some_iff.mp h
    obtain ⟨-, rfl⟩ := Prod.mk.inj (Option.some.inj heq)
    exact (hunsigned r hr).le
  · obtain ⟨r, hr, heq⟩ := Option.bind_eq_some_iff.mp h
    obtain ⟨-, rfl⟩ := Prod.mk.inj (Option.some.inj heq)
    exact (hint r hr).le
  · obtain ⟨r, hr, heq⟩ := Option.bind_eq_some_iff.mp h
    obtain ⟨-, rfl⟩ := Prod.mk.inj (Option.some.inj heq)
    exact (hstr r hr).le
  · obtain ⟨r, hr, heq⟩ := Option.bind_eq_some_iff.mp h
    obtain ⟨-, rfl⟩ := Prod.mk.inj (Option.some.inj heq)
    exact (hlong r hr).le
  · obtain ⟨-, rfl⟩ := Prod.mk.inj (Option.some.inj h)
    exact Nat.le_succ _

/-! ## Specifications -/

namespace FormatSpec

variable {s : FormatSpec} {vals left : List VaArg} {t : List UInt8}

/-- The conversion character ends the reading. -/
lemma letter_spec (s : FormatSpec) : IsConversion s.converted.letter ∧
    s.converted.letter ≠ byte '*' ∧ s.converted.letter ≠ byte '%' ∧
    s.converted.letter ≠ byte '@' ∧ s.converted.letter ≠ 0 := by
  have hall : ∀ x ∈ ascii "csdiuxXop", ((ascii "-+ #0").contains x = false ∧
      isdigit x = false ∧ x ≠ byte '.' ∧ (ascii "lhzjtL").contains x = false) ∧ x ≠ byte '*' ∧
      x ≠ byte '%' ∧ x ≠ byte '@' ∧ x ≠ 0 := by decide
  apply hall
  cases s.converted with
  | integer c w => cases c <;> simp [Converted.letter, Conversion.char, ascii]
  | _ => simp [Converted.letter, ascii]

/-- The characters of the flags. -/
lemma isFlag_char (f : Flag) : isFlag f.char = true := by cases f <;> decide

/-- The characters of the length modifiers. -/
lemma isModifier_char (m : Modifier) : isModifier m.char = true := by cases m <;> decide

/-- Without a `*`, flags, digits and length modifiers stand in front of the conversion. -/
lemma isFront_front (h : s.width.args = []) : IsFront s.front := by
  refine ⟨s.flags.map Flag.char, s.width.text, s.modifiers.map Modifier.char, rfl, ?_, ?_, ?_⟩
  · intro x hx
    obtain ⟨f, -, rfl⟩ := List.mem_map.mp hx
    exact isFlag_char f
  · intro x hx
    cases hwidth : s.width with
    | absent => rw [hwidth] at hx; cases hx
    | decimal w pos =>
      rw [hwidth] at hx
      obtain ⟨d, hd, rfl⟩ := List.mem_map.mp hx
      exact isdigit_digitChar (Nat.digits_lt_base (by decide) (List.mem_reverse.mp hd))
    | star w => rw [hwidth] at h; cases h
  · intro x hx
    obtain ⟨m, -, rfl⟩ := List.mem_map.mp hx
    exact isModifier_char m

/-- There is no NUL in flags, digits and length modifiers. -/
lemma zero_notMem_of_isFront {q : List UInt8} (h : IsFront q) : 0 ∉ q := by
  obtain ⟨a, b, c, rfl, ha, hb, hc⟩ := h
  intro hmem
  simp only [List.mem_append] at hmem
  obtain hmem | hmem | hmem := hmem
  · exact absurd (ha 0 hmem) (by decide)
  · exact absurd (hb 0 hmem) (by decide)
  · exact absurd (hc 0 hmem) (by decide)

/-- There is no NUL in a specification. -/
lemma zero_notMem_text (s : FormatSpec) : 0 ∉ s.text := by
  have hflags : (0 : UInt8) ∉ s.flags.map Flag.char := by
    intro hmem
    obtain ⟨f, -, hzero⟩ := List.mem_map.mp hmem
    exact absurd (hzero ▸ isFlag_char f) (by decide)
  have hmods : (0 : UInt8) ∉ s.modifiers.map Modifier.char := by
    intro hmem
    obtain ⟨m, -, hzero⟩ := List.mem_map.mp hmem
    exact absurd (hzero ▸ isModifier_char m) (by decide)
  have hwidth : (0 : UInt8) ∉ s.width.text := by
    cases hw : s.width with
    | absent => exact List.not_mem_nil
    | decimal w pos =>
      intro hmem
      obtain ⟨d, hd, hzero⟩ := List.mem_map.mp hmem
      have hlt := Nat.digits_lt_base (by decide) (List.mem_reverse.mp hd)
      exact absurd (hzero ▸ isdigit_digitChar hlt) (by decide)
    | star w =>
      have hnot : (0 : UInt8) ∉ [byte '*'] := by decide
      exact hnot
  have hletter := s.letter_spec.2.2.2.2
  have hpercent : (0 : UInt8) ≠ byte '%' := by decide
  simp only [text, front, List.mem_cons, List.mem_append, not_or, List.not_mem_nil, or_false]
  exact ⟨hpercent, ⟨hflags, hwidth, hmods⟩, hletter.symm⟩

/-- What stands before the conversion, and its letter, as `vformat` reads them. -/
lemma directive_text (h : s.width.args = []) :
    ∃ d, ∀ ap, directive (s.front ++ [s.converted.letter]) ap =
      some (d, [s.converted.letter], ap) := by
  apply directive_front (isFront_front h)
  intro x hx
  obtain rfl := Option.some.inj hx
  exact ⟨s.letter_spec.1, s.letter_spec.2.1⟩

/-- **A specification without a `*`**: how it is read, and that it takes its argument and puts out its
text. -/
lemma output_spec (h : s.width.args = []) :
    (∃ d, (∀ ap, directive (s.front ++ [s.converted.letter]) ap =
        some (d, [s.converted.letter], ap)) ∧
      ∀ more, Libc.conversion d s.converted.letter (s.converted.arg :: more) =
        some (s.output, more)) ∧
    (0 ∈ s.output ↔ ∃ w, s.converted = .char w ∧ w.truncate 8 = 0) := by
  obtain ⟨d, hd⟩ := directive_text h
  obtain ⟨t, ht, hzero⟩ := conversion_letter d s.converted
  have hout : s.output = t := by
    have hbytes : (CString.ofBytes s.text).bytes = byte '%' ::
        (s.front ++ [s.converted.letter]) := CString.bytes_ofBytes_of_nulFree s.zero_notMem_text
    rw [output, expansion, hbytes, args, h, List.nil_append, expansionLoop, if_pos rfl, hd]
    simp only [Option.bind_eq_bind, Option.bind_some, ht]
    cases (CString.ofBytes s.text).strlen <;> simp [expansionLoop]
  rw [hout]
  exact ⟨⟨d, hd, ht⟩, hzero⟩

/-- What `vsnprintf` leaves in `tmp[512]`. -/
lemma vsnprintf_eq {fmt : CString} {e : List UInt8} (he : expansion fmt vals = some e) :
    vsnprintf 512 fmt vals = if e.length < 512 then some (CString.ofBytes e) else none := by
  rw [vsnprintf, vformat_eq, he, Option.map_some, Option.bind_eq_bind, Option.bind_some]
  split_ifs with hlen
  · exact Sink.contents_after hlen
  · exact Sink.contents_after_eq_none (Nat.le_of_not_lt hlen)

/-- **A specification that `miniFmt` has room for** takes its argument; its text must not fill `tmp`,
and is copied up to a NUL. -/
lemma formatConversion_short (h : s.width.args = []) (hlen : s.text.length ≤ 31)
    (more : List VaArg) :
    formatConversion s.front s.converted.letter (s.converted.arg :: more) =
      if s.output.length < 512 then .ok ((CString.ofBytes s.output).bytes, more)
      else .error .outOfBounds := by
  obtain ⟨⟨d, hd, ht⟩, -⟩ := output_spec h
  obtain ⟨-, -, hpercent, hat, -⟩ := s.letter_spec
  have hmini : (byte '%' :: s.front ++ [s.converted.letter]).take 31 = s.text := by
    rw [List.take_of_length_le (by simpa [text] using hlen)]
    rfl
  have hbytes : (CString.ofBytes s.text).bytes = byte '%' ::
      (s.front ++ [s.converted.letter]) := CString.bytes_ofBytes_of_nulFree s.zero_notMem_text
  have hexpand : expansion (CString.ofBytes s.text) (s.converted.arg :: more) = some s.output := by
    rw [expansion, hbytes, expansionLoop, if_pos rfl, hd]
    simp only [Option.bind_eq_bind, Option.bind_some, ht]
    cases (CString.ofBytes s.text).strlen <;> simp [expansionLoop]
  have hargs : argsAfter s.text (s.converted.arg :: more) = some more := by
    rw [argsAfter, show s.text.tail = s.front ++ [s.converted.letter] from rfl, hd]
    simp only [Option.bind_eq_bind, Option.bind_some, after_nil, convert_eq, ht, Option.map_some]
  rw [formatConversion, hmini, if_neg hpercent, if_neg hat, vsnprintf_eq hexpand, hargs]
  split_ifs <;> rfl

/-- **A specification that `miniFmt` cuts** puts out nothing and takes no argument. -/
lemma formatConversion_cut {q : List UInt8} (hq : IsFront q) (hlen : 30 ≤ q.length) {conv : UInt8}
    (hpercent : conv ≠ byte '%') (hat : conv ≠ byte '@') (vals : List VaArg) :
    formatConversion q conv vals = .ok ([], vals) := by
  obtain ⟨d, hd⟩ := directive_front (t := []) (hq.take 30) fun x hx => by cases hx
  rw [List.append_nil] at hd
  have hmini : (byte '%' :: q ++ [conv]).take 31 = byte '%' :: q.take 30 := by
    rw [List.cons_append, List.take_succ_cons, List.take_append_of_le_length hlen]
  have hnul : 0 ∉ byte '%' :: q.take 30 := by
    rw [List.mem_cons, not_or]
    exact ⟨by decide, zero_notMem_of_isFront (hq.take 30)⟩
  have hexpand : expansion (CString.ofBytes (byte '%' :: q.take 30)) vals = some [] := by
    rw [expansion, CString.bytes_ofBytes_of_nulFree hnul, expansionLoop, if_pos rfl, hd]
    rfl
  have hargs : argsAfter (byte '%' :: q.take 30) vals = some vals := by
    rw [argsAfter, List.tail_cons, hd]
    rfl
  rw [formatConversion, hmini, if_neg hpercent, if_neg hat, vsnprintf_eq hexpand, hargs]
  rfl

/-- **A `*`** is the end of what the function reads: `vsnprintf` takes the width and puts out nothing. -/
lemma formatConversion_star (fs : List Flag)
    (h : formatConversion (fs.map Flag.char) (byte '*') vals = .ok (t, left)) :
    t = [] ∧ vals.length ≤ left.length + 1 := by
  have hfront : IsFront (fs.map Flag.char) := by
    refine ⟨fs.map Flag.char, [], [], by simp, ?_, by simp, by simp⟩
    intro x hx
    obtain ⟨f, -, rfl⟩ := List.mem_map.mp hx
    exact isFlag_char f
  by_cases hlen : 30 ≤ (fs.map Flag.char).length
  · rw [formatConversion_cut hfront hlen (by decide) (by decide)] at h
    obtain ⟨rfl, rfl⟩ := Prod.mk.inj (Except.ok.inj h)
    exact ⟨rfl, Nat.le_succ _⟩
  · have hmini : (byte '%' :: fs.map Flag.char ++ [byte '*']).take 31 =
        byte '%' :: (fs.map Flag.char ++ [byte '*']) := by
      rw [List.cons_append, List.take_of_length_le]
      simp only [List.length_cons, List.length_append, List.length_nil]
      omega
    have hnul : 0 ∉ byte '%' :: (fs.map Flag.char ++ [byte '*']) := by
      have hnot := zero_notMem_of_isFront hfront
      have hpercent : (0 : UInt8) ≠ byte '%' := by decide
      have hstar : (0 : UInt8) ≠ byte '*' := by decide
      simp only [List.mem_cons, List.mem_append, List.not_mem_nil, or_false, not_or]
      exact ⟨hpercent, hnot, hstar⟩
    have hdir : directive (fs.map Flag.char ++ [byte '*']) vals =
        (vaInt vals).map fun r => (⟨decide (.zero ∈ fs), decide (.minus ∈ fs) || r.1.slt 0,
          if r.1.toInt < 0 then toInt32 (-r.1.toInt) else r.1.toInt, 0⟩, [], r.2) := by
      unfold directive
      rw [flags_map fs _ _ (by decide) (by decide)]
      simp only [if_true, Bool.false_or, lengthModifiers]
      cases vaInt vals <;> rfl
    obtain ⟨-, hint, -, -⟩ := va_takes vals
    rw [formatConversion, hmini, if_neg (by decide), if_neg (by decide)] at h
    cases hva : vaInt vals with
    | none =>
      rw [hva, Option.map_none] at hdir
      have hexpand : expansion (CString.ofBytes (byte '%' :: (fs.map Flag.char ++ [byte '*'])))
          vals = none := by
        rw [expansion, CString.bytes_ofBytes_of_nulFree hnul, expansionLoop, if_pos rfl, hdir]
        rfl
      rw [vsnprintf, vformat_eq, hexpand] at h
      cases h
    | some r =>
      rw [hva, Option.map_some] at hdir
      have hexpand : expansion (CString.ofBytes (byte '%' :: (fs.map Flag.char ++ [byte '*'])))
          vals = some [] := by
        rw [expansion, CString.bytes_ofBytes_of_nulFree hnul, expansionLoop, if_pos rfl, hdir]
        rfl
      have hargs : argsAfter (byte '%' :: (fs.map Flag.char ++ [byte '*'])) vals = some r.2 := by
        rw [argsAfter, List.tail_cons, hdir]
        rfl
      rw [vsnprintf_eq hexpand, hargs] at h
      obtain ⟨rfl, rfl⟩ := Prod.mk.inj (Except.ok.inj h)
      exact ⟨rfl, (hint r hva).le⟩

/-- Without a `*`, no more than one argument is taken, whatever the arguments are. -/
lemma formatConversion_takes (hwidth : s.width.args = [])
    (h : formatConversion s.front s.converted.letter vals = .ok (t, left)) :
    vals.length ≤ left.length + 1 := by
  obtain ⟨-, -, hpercent, hat, -⟩ := s.letter_spec
  by_cases hlen : 30 ≤ s.front.length
  · rw [formatConversion_cut (isFront_front hwidth) hlen hpercent hat] at h
    obtain ⟨-, rfl⟩ := Prod.mk.inj (Except.ok.inj h)
    exact Nat.le_succ _
  · obtain ⟨d, hd⟩ := directive_text hwidth
    have hmini : (byte '%' :: s.front ++ [s.converted.letter]).take 31 = s.text := by
      rw [List.take_of_length_le]
      · rfl
      · simp only [List.length_append, List.length_cons, List.length_nil]
        omega
    have hargs : argsAfter s.text vals =
        (Libc.conversion d s.converted.letter vals).map Prod.snd := by
      rw [argsAfter, show s.text.tail = s.front ++ [s.converted.letter] from rfl, hd]
      simp only [Option.bind_eq_bind, Option.bind_some, after_nil, convert_eq, Option.map_map]
      rfl
    rw [formatConversion, hmini, if_neg hpercent, if_neg hat, hargs] at h
    cases hconv : Libc.conversion d s.converted.letter vals with
    | none =>
      rw [hconv] at h
      cases hprint : vsnprintf 512 (CString.ofBytes s.text) vals <;> rw [hprint] at h <;> cases h
    | some r =>
      rw [hconv] at h
      cases hprint : vsnprintf 512 (CString.ofBytes s.text) vals with
      | none => rw [hprint] at h; cases h
      | some tmp =>
        rw [hprint] at h
        obtain ⟨-, rfl⟩ := Prod.mk.inj (Except.ok.inj h)
        exact conversion_takes hconv

end FormatSpec

/-! ## The loop -/

/-- What is left of a format behind a conversion is shorter. -/
lemma length_conversion_lt {p mods q : List UInt8} {conv : UInt8}
    (h : conversion p = some (mods, conv, q)) : q.length < p.length := by
  unfold conversion at h
  dsimp only at h
  have hflags := (List.dropWhile_suffix (ascii "-+ #0").contains (l := p)).length_le
  have hdigits := (List.dropWhile_suffix isdigit
    (l := p.dropWhile (ascii "-+ #0").contains)).length_le
  generalize (p.dropWhile (ascii "-+ #0").contains).dropWhile isdigit = r at h hdigits
  have hdot : (if r.head? = some (byte '.') then r.tail.dropWhile isdigit else r).length ≤
      r.length := by
    split_ifs
    · have htail := (List.dropWhile_suffix isdigit (l := r.tail)).length_le
      rw [List.length_tail] at htail
      omega
    · exact le_refl _
  generalize (if r.head? = some (byte '.') then r.tail.dropWhile isdigit else r) = r' at h hdot
  have hmods := (List.dropWhile_suffix (ascii "lhzjtL").contains (l := r')).length_le
  cases hlast : r'.dropWhile (ascii "lhzjtL").contains with
  | nil => rw [hlast] at h; cases h
  | cons b rest =>
    rw [hlast] at h hmods
    simp only [Option.some.injEq, Prod.mk.injEq] at h
    obtain ⟨-, -, rfl⟩ := h
    rw [List.length_cons] at hmods
    omega

/-- The loop does not depend on how many more rounds it could make. -/
lemma formatStringLoop_fuel {p : List UInt8} {fuel fuel' : ℕ} (h : p.length < fuel)
    (h' : p.length < fuel') (args : List FormatArg) :
    formatStringLoop fuel p args = formatStringLoop fuel' p args := by
  induction fuel generalizing fuel' p args with
  | zero => exact absurd h (Nat.not_lt_zero _)
  | succ fuel ih =>
    obtain ⟨fuel', rfl⟩ := Nat.exists_eq_add_of_le' (Nat.zero_lt_of_lt h')
    cases p with
    | nil => rfl
    | cons b p =>
      rw [List.length_cons] at h h'
      rw [formatStringLoop, formatStringLoop]
      split_ifs with hb
      · rw [ih (by omega) (show p.length < fuel' by omega)]
      · cases hconv : conversion p with
        | none => rfl
        | some r =>
          obtain ⟨mods, conv, q⟩ := r
          have hlt := length_conversion_lt hconv
          dsimp only
          congr 1
          funext r
          rw [ih (by omega) (show q.length < fuel' by omega)]

/-- A byte that starts no conversion is copied. -/
lemma formatString_cons {b : UInt8} (hb : b ≠ byte '%') (hnul : b ≠ 0) (bs : List UInt8)
    (args : List FormatArg) :
    formatString (b :: bs) args = (formatString bs args).map fun r => (b :: r.1, r.2) := by
  have hbytes := CString.bytes_ofBytes_append (a := [b]) (by simpa using hnul.symm) bs
  rw [List.singleton_append, List.singleton_append] at hbytes
  unfold formatString CString.strlen
  rw [hbytes, formatStringLoop, if_pos hb, List.length_cons]
  cases formatStringLoop ((CString.ofBytes bs).bytes.length + 1) (CString.ofBytes bs).bytes args <;>
    rfl

/-- **Literal text is copied.** -/
lemma formatString_literal {lit : List UInt8} (hlit : byte '%' ∉ lit) (hnul : 0 ∉ lit)
    (bs : List UInt8) (args : List FormatArg) :
    formatString (lit ++ bs) args = (formatString bs args).map fun r => (lit ++ r.1, r.2) := by
  induction lit with
  | nil =>
    rw [List.nil_append]
    cases formatString bs args <;> rfl
  | cons b lit ih =>
    rw [List.mem_cons, not_or] at hlit hnul
    rw [List.cons_append, formatString_cons (Ne.symm hlit.1) (Ne.symm hnul.1), ih hlit.2 hnul.2]
    cases formatString bs args <;> rfl

/-- At a NUL the format ends. -/
lemma formatString_nul {lit : List UInt8} (hlit : byte '%' ∉ lit) (hnul : 0 ∉ lit)
    (bs : List UInt8) (args : List FormatArg) :
    formatString (lit ++ 0 :: bs) args = .ok (lit, args) := by
  rw [formatString_literal hlit hnul]
  have hend : formatString (0 :: bs) args = .ok ([], args) := rfl
  rw [hend, Except.map, List.append_nil]

/-- **A conversion is carried out**, and the rest of the format behind it. -/
lemma formatString_step {q : List UInt8} (hq : IsFront q) {conv : UInt8}
    (hconv : IsConversion conv) (hnul : conv ≠ 0) (bs : List UInt8) (args : List FormatArg) :
    formatString (byte '%' :: (q ++ conv :: bs)) args =
      (formatStep q conv args).bind fun r =>
        (formatString bs r.2).map fun rest => (r.1 ++ rest.1, rest.2) := by
  have hfree : 0 ∉ byte '%' :: (q ++ [conv]) := by
    have hpercent : (0 : UInt8) ≠ byte '%' := by decide
    simp only [List.mem_cons, List.mem_append, List.not_mem_nil, or_false, not_or]
    exact ⟨hpercent, FormatSpec.zero_notMem_of_isFront hq, hnul.symm⟩
  have hbytes := CString.bytes_ofBytes_append hfree bs
  simp only [List.cons_append, List.append_assoc, List.nil_append] at hbytes
  have hlt : (CString.ofBytes bs).bytes.length <
      (byte '%' :: (q ++ conv :: (CString.ofBytes bs).bytes)).length := by
    simp only [List.length_cons, List.length_append]
    omega
  unfold formatString CString.strlen
  rw [hbytes, formatStringLoop, if_neg (not_not.mpr rfl), conversion_front hq hconv]
  dsimp only
  cases formatStep q conv args with
  | error e => rfl
  | ok r =>
    have hfuel := formatStringLoop_fuel hlt (Nat.lt_succ_self _) r.2
    simp only [ok_bind, Except.bind, hfuel]
    cases formatStringLoop ((CString.ofBytes bs).bytes.length + 1) (CString.ofBytes bs).bytes r.2 <;>
      rfl

/-! ## Parts of a format -/

namespace Segment

/-- A specification that the function reads as `vformat` does. -/
def Read : Segment → Prop
  | .spec s => s.width.args = [] ∧ s.text.length ≤ 31
  | _ => True

variable {seg : Segment} {bs out : List UInt8} {args left : List FormatArg}

/-- `%%`. -/
lemma formatString_percent (bs : List UInt8) (args : List FormatArg) :
    formatString (ascii "%%" ++ bs) args =
      (formatString bs args).map fun rest => (ascii "%" ++ rest.1, rest.2) := by
  have hfront : IsFront [] := ⟨[], [], [], rfl, by simp, by simp, by simp⟩
  have hconv : IsConversion (byte '%') := by
    unfold IsConversion
    decide
  have hstep : formatStep [] (byte '%') args = .ok (ascii "%", args) := by
    have hargs := splitValues_eq args
    rw [formatStep, if_neg (by decide), formatConversion, if_pos rfl]
    simp only [ok_bind, hargs]
    rfl
  have h := formatString_step hfront hconv (by decide) bs args
  rw [hstep] at h
  exact h

/-- `%@`. -/
lemma formatString_object (bs : List UInt8) (args : List FormatArg) :
    formatString (ascii "%@" ++ bs) args =
      (formatStep [] (byte '@') args).bind fun r =>
        (formatString bs r.2).map fun rest => (r.1 ++ rest.1, rest.2) := by
  have hfront : IsFront [] := ⟨[], [], [], rfl, by simp, by simp, by simp⟩
  have hconv : IsConversion (byte '@') := by
    unfold IsConversion
    decide
  exact formatString_step hfront hconv (by decide) bs args

/-- A specification without a `*`. -/
lemma formatString_spec {s : FormatSpec} (h : s.width.args = []) (bs : List UInt8)
    (args : List FormatArg) :
    formatString (s.text ++ bs) args =
      (formatStep s.front s.converted.letter args).bind fun r =>
        (formatString bs r.2).map fun rest => (r.1 ++ rest.1, rest.2) := by
  have hstep := formatString_step (FormatSpec.isFront_front h) s.letter_spec.1
    s.letter_spec.2.2.2.2 bs args
  rw [FormatSpec.text, List.cons_append, List.append_assoc, List.singleton_append]
  exact hstep

/-- A result of two steps. -/
lemma of_bind_map {step : Except Fault (List UInt8 × List FormatArg)}
    {rest : List FormatArg → Except Fault (List UInt8 × List FormatArg)}
    (h : (step.bind fun r => (rest r.2).map fun p => (r.1 ++ p.1, p.2)) = .ok (out, left)) :
    ∃ text args' more, step = .ok (text, args') ∧ rest args' = .ok (more, left) ∧
      out = text ++ more := by
  cases step with
  | error e => cases h
  | ok r =>
    cases hrest : rest r.2 with
    | error e =>
      simp only [Except.bind, hrest, Except.map] at h
      cases h
    | ok p =>
      simp only [Except.bind, hrest, Except.map, Except.ok.injEq, Prod.mk.injEq] at h
      obtain ⟨rfl, rfl⟩ := h
      exact ⟨r.1, r.2, p.1, rfl, hrest, rfl⟩

/-- A result of one step. -/
lemma of_map {text : List UInt8} {rest : Except Fault (List UInt8 × List FormatArg)}
    (h : (rest.map fun p => (text ++ p.1, p.2)) = .ok (out, left)) :
    ∃ more, rest = .ok (more, left) ∧ out = text ++ more := by
  cases rest with
  | error e => cases h
  | ok p =>
    simp only [Except.map, Except.ok.injEq, Prod.mk.injEq] at h
    obtain ⟨rfl, rfl⟩ := h
    exact ⟨p.1, rfl, rfl⟩

/-- A conversion that `vsnprintf` carries out. -/
lemma of_formatStep {mods t : List UInt8} {conv : UInt8} {args' : List FormatArg}
    (hat : conv ≠ byte '@') (h : formatStep mods conv args = .ok (t, args')) :
    ∃ vals, formatConversion mods conv (splitValues args).1 = .ok (t, vals) ∧
      args' = vals.map .value ++ (splitValues args).2 := by
  rw [formatStep, if_neg hat] at h
  cases hconv : formatConversion mods conv (splitValues args).1 with
  | error e =>
    rw [hconv] at h
    cases h
  | ok r =>
    rw [hconv] at h
    simp only [ok_bind, Except.ok.injEq, Prod.mk.injEq] at h
    obtain ⟨rfl, rfl⟩ := h
    exact ⟨r.2, rfl, rfl⟩

/-- How many arguments there are. -/
lemma length_splitValues (args : List FormatArg) :
    args.length = (splitValues args).1.length + (splitValues args).2.length := by
  have h := congrArg List.length (splitValues_eq args)
  rw [List.length_append, List.length_map] at h
  exact h.symm

/-- **What a part takes**: no more arguments than its own, and if it takes all of them, it is read as
`vformat` reads it. Only literal text with a NUL ends the format. -/
lemma takes_of_ok (h : formatString (seg.text ++ bs) args = .ok (out, left)) :
    (seg.Read ∧ left = args) ∨ ∃ text args' more,
      formatString bs args' = .ok (more, left) ∧ out = text ++ more ∧
        args.length ≤ args'.length + seg.args.length ∧
        (args.length = args'.length + seg.args.length → seg.Read) := by
  cases seg with
  | literal lit hlit =>
    by_cases hnul : 0 ∈ lit
    · obtain ⟨a, b, rfl, ha⟩ := List.eq_append_cons_of_mem hnul
      rw [List.mem_append, not_or] at hlit
      rw [text, List.append_assoc, List.cons_append, formatString_nul hlit.1 ha] at h
      exact .inl ⟨trivial, (Prod.mk.inj (Except.ok.inj h)).2.symm⟩
    · rw [text, formatString_literal hlit hnul] at h
      obtain ⟨more, hmore, hout⟩ := of_map h
      exact .inr ⟨lit, args, more, hmore, hout, le_refl _, fun _ => trivial⟩
  | percent =>
    rw [text, formatString_percent] at h
    obtain ⟨more, hmore, hout⟩ := of_map h
    exact .inr ⟨_, args, more, hmore, hout, le_refl _, fun _ => trivial⟩
  | object description =>
    rw [text, formatString_object] at h
    obtain ⟨t, args', more, hstep, hmore, hout⟩ := of_bind_map h
    refine .inr ⟨t, args', more, hmore, hout, ?_, fun _ => trivial⟩
    rw [formatStep, if_pos rfl] at hstep
    cases args with
    | nil => cases hstep
    | cons a args =>
      cases a with
      | value a => cases hstep
      | object d =>
        obtain ⟨-, rfl⟩ := Prod.mk.inj (Except.ok.inj hstep)
        exact le_refl _
  | spec s =>
    obtain ⟨hletter, -, hpercent, hat, -⟩ := s.letter_spec
    by_cases hwidth : s.width.args = []
    · rw [text, formatString_spec hwidth] at h
      obtain ⟨t, args', more, hstep, hmore, hout⟩ := of_bind_map h
      obtain ⟨vals, hconv, rfl⟩ := of_formatStep hat hstep
      have hlen := length_splitValues args
      have htakes := FormatSpec.formatConversion_takes hwidth hconv
      have hown : (Segment.spec s).args.length = 1 := by
        simp [Segment.args, FormatSpec.args, hwidth]
      have hlen' : (vals.map FormatArg.value ++ (splitValues args).2).length =
          vals.length + (splitValues args).2.length := by simp
      refine .inr ⟨t, _, more, hmore, hout, by omega, fun heq => ⟨hwidth, ?_⟩⟩
      by_contra hlong
      have htext : s.text.length = s.front.length + 2 := by simp [FormatSpec.text]
      have hcut := FormatSpec.formatConversion_cut (FormatSpec.isFront_front hwidth) (by omega)
        hpercent hat (splitValues args).1
      rw [hcut] at hconv
      obtain ⟨-, rfl⟩ := Prod.mk.inj (Except.ok.inj hconv)
      omega
    · obtain ⟨w, hw⟩ : ∃ w, s.width = .star w := by
        cases hw : s.width with
        | star w => exact ⟨w, rfl⟩
        | _ => rw [hw] at hwidth; exact absurd rfl hwidth
      have hfront : IsFront (s.flags.map Flag.char) := by
        refine ⟨s.flags.map Flag.char, [], [], by simp, ?_, by simp, by simp⟩
        intro x hx
        obtain ⟨f, -, rfl⟩ := List.mem_map.mp hx
        exact FormatSpec.isFlag_char f
      have hconv : IsConversion (byte '*') := by
        unfold IsConversion
        decide
      have htext : s.text ++ bs = byte '%' :: (s.flags.map Flag.char ++ byte '*' ::
          (s.modifiers.map Modifier.char ++ [s.converted.letter] ++ bs)) := by
        simp [FormatSpec.text, FormatSpec.front, hw, Width.text]
      have hpercent' : byte '%' ∉ s.modifiers.map Modifier.char ++ [s.converted.letter] := by
        rw [List.mem_append, List.mem_singleton, not_or]
        refine ⟨fun hmem => ?_, hpercent.symm⟩
        obtain ⟨m, -, heq⟩ := List.mem_map.mp hmem
        exact absurd (heq ▸ FormatSpec.isModifier_char m) (by decide)
      have hnul : 0 ∉ s.modifiers.map Modifier.char ++ [s.converted.letter] := by
        rw [List.mem_append, List.mem_singleton, not_or]
        refine ⟨fun hmem => ?_, s.letter_spec.2.2.2.2.symm⟩
        obtain ⟨m, -, heq⟩ := List.mem_map.mp hmem
        exact absurd (heq ▸ FormatSpec.isModifier_char m) (by decide)
      rw [text, htext, formatString_step hfront hconv (by decide)] at h
      obtain ⟨t, args', more, hstep, hmore, rfl⟩ := of_bind_map h
      obtain ⟨vals, hvals, rfl⟩ := of_formatStep (by decide) hstep
      obtain ⟨-, htakes⟩ := FormatSpec.formatConversion_star s.flags hvals
      rw [formatString_literal hpercent' hnul] at hmore
      obtain ⟨more', hmore', rfl⟩ := of_map hmore
      have hlen := length_splitValues args
      have hown : (Segment.spec s).args.length = 2 := by
        simp [Segment.args, FormatSpec.args, hw, Width.args]
      have hlen' : (vals.map FormatArg.value ++ (splitValues args).2).length =
          vals.length + (splitValues args).2.length := by simp
      exact .inr ⟨_, _, more', hmore', (List.append_assoc _ _ _).symm, by omega,
        fun heq => by omega⟩

/-- A specification that is read as `vformat` reads it, with its own argument. -/
lemma formatStep_spec {s : FormatSpec} (h : (Segment.spec s).Read) (args : List FormatArg) :
    formatStep s.front s.converted.letter (s.args.map .value ++ args) =
      if s.output.length < 512 then .ok ((CString.ofBytes s.output).bytes, args)
      else .error .outOfBounds := by
  have hargs : s.args = [s.converted.arg] := by rw [FormatSpec.args, h.1, List.nil_append]
  have hsplit := splitValues_eq args
  rw [formatStep, if_neg s.letter_spec.2.2.2.1, splitValues_map, hargs]
  simp only [List.cons_append, List.nil_append]
  rw [FormatSpec.formatConversion_short h.1 h.2]
  split_ifs
  · simp only [ok_bind, hsplit]
  · rfl

/-- **A part that gets through** puts out its text and takes its arguments. -/
lemma formatString_fits (h : seg.Fits) (bs : List UInt8) (args : List FormatArg) :
    formatString (seg.text ++ bs) (seg.args ++ args) =
      (formatString bs args).map fun rest => (seg.output ++ rest.1, rest.2) := by
  cases seg with
  | literal lit hlit => exact formatString_literal hlit h bs args
  | percent => exact formatString_percent bs args
  | object description =>
    have hstep : formatStep [] (byte '@') ([FormatArg.object description] ++ args) =
        .ok (description.getD (ascii "(null)"), args) := rfl
    rw [text, formatString_object, Segment.args, hstep]
    rfl
  | spec s =>
    obtain ⟨hwidth, hlen, hout, hnul⟩ := h
    have hfree : 0 ∉ s.output := by
      rw [(FormatSpec.output_spec hwidth).2]
      rintro ⟨w, hw, hzero⟩
      exact hnul w hw hzero
    rw [text, formatString_spec hwidth, Segment.args, formatStep_spec ⟨hwidth, hlen⟩,
      if_pos (by omega), CString.bytes_ofBytes_of_nulFree hfree]
    rfl

/-- **What a part puts out** if it is read as `vformat` reads it and has its own arguments: not more
than its text, and if it is as long as that, the part gets through. Only literal text with a NUL ends
the format. -/
lemma fits_of_ok (hread : seg.Read)
    (h : formatString (seg.text ++ bs) (seg.args ++ args) = .ok (out, left)) :
    out.length < seg.output.length ∨ ∃ text more,
      formatString bs args = .ok (more, left) ∧ out = text ++ more ∧
        text.length ≤ seg.output.length ∧ (text.length = seg.output.length → seg.Fits) := by
  cases seg with
  | literal lit hlit =>
    by_cases hnul : 0 ∈ lit
    · obtain ⟨a, b, rfl, ha⟩ := List.eq_append_cons_of_mem hnul
      rw [List.mem_append, not_or] at hlit
      rw [text, List.append_assoc, List.cons_append, formatString_nul hlit.1 ha] at h
      obtain ⟨rfl, -⟩ := Prod.mk.inj (Except.ok.inj h)
      refine .inl ?_
      rw [output, List.length_append, List.length_cons]
      omega
    · rw [formatString_fits (show (Segment.literal lit hlit).Fits from hnul)] at h
      obtain ⟨more, hmore, hout⟩ := of_map h
      exact .inr ⟨lit, more, hmore, hout, le_refl _, fun _ => hnul⟩
  | percent =>
    rw [formatString_fits (show Segment.percent.Fits from trivial)] at h
    obtain ⟨more, hmore, hout⟩ := of_map h
    exact .inr ⟨_, more, hmore, hout, le_refl _, fun _ => trivial⟩
  | object description =>
    rw [formatString_fits (show (Segment.object description).Fits from trivial)] at h
    obtain ⟨more, hmore, hout⟩ := of_map h
    exact .inr ⟨_, more, hmore, hout, le_refl _, fun _ => trivial⟩
  | spec s =>
    rw [text, formatString_spec hread.1, Segment.args, formatStep_spec hread] at h
    split_ifs at h with hlen
    · obtain ⟨more, hmore, hout⟩ := of_map h
      refine .inr ⟨_, more, hmore, hout, CString.strlen_ofBytes_le s.output, fun heq => ?_⟩
      refine ⟨hread.1, hread.2, by omega, fun w hw hzero => ?_⟩
      -- a NUL in the text would make the copy shorter
      have hmem : 0 ∈ s.output := (FormatSpec.output_spec hread.1).2.mpr ⟨w, hw, hzero⟩
      obtain ⟨a, b, hab, ha⟩ := List.eq_append_cons_of_mem hmem
      have hcopy := CString.bytes_ofBytes_append ha (0 :: b)
      have hend : (CString.ofBytes (0 :: b)).bytes = [] := rfl
      rw [← hab, hend, List.append_nil] at hcopy
      have hlonger : s.output.length = a.length + (b.length + 1) := by
        rw [hab, List.length_append, List.length_cons]
      rw [hcopy] at heq
      have heq' : a.length = s.output.length := heq
      omega
    · cases h

end Segment

/-! ## Whole formats -/

variable {segs : List Segment} {args left rest : List FormatArg} {out : List UInt8}

/-- Every part gets through, so the string is complete. -/
lemma formatString_of_fits (h : ∀ seg ∈ segs, seg.Fits) (rest : List FormatArg) :
    formatString (segs.flatMap Segment.text) (segs.flatMap Segment.args ++ rest) =
      .ok (segs.flatMap Segment.output, rest) := by
  induction segs with
  | nil => rfl
  | cons seg segs ih =>
    rw [List.flatMap_cons, List.flatMap_cons, List.append_assoc,
      Segment.formatString_fits (h seg List.mem_cons_self),
      ih fun seg' hmem => h seg' (List.mem_cons_of_mem _ hmem), List.flatMap_cons]
    rfl

/-- **What a format takes**: no more than the arguments of its parts, and if it takes all of them, it
is read as `vformat` reads it. -/
lemma read_of_ok (h : formatString (segs.flatMap Segment.text) args = .ok (out, left)) :
    args.length ≤ left.length + (segs.flatMap Segment.args).length ∧
    (args.length = left.length + (segs.flatMap Segment.args).length → ∀ seg ∈ segs, seg.Read) := by
  induction segs generalizing args out with
  | nil =>
    obtain ⟨-, rfl⟩ := Prod.mk.inj (Except.ok.inj h)
    exact ⟨le_refl _, fun _ => nofun⟩
  | cons seg segs ih =>
    rw [List.flatMap_cons] at h
    rw [List.flatMap_cons, List.length_append]
    obtain ⟨hread, rfl⟩ | ⟨text, args', more, hmore, -, hle, hread⟩ := Segment.takes_of_ok h
    · refine ⟨by omega, fun heq seg' hmem => ?_⟩
      obtain rfl | hmem := List.mem_cons.mp hmem
      · exact hread
      · have hnone : (segs.flatMap Segment.args).length = 0 := by omega
        have hown : seg'.args = [] := by
          have hall := List.flatMap_eq_nil_iff.mp (List.length_eq_zero_iff.mp hnone)
          exact hall seg' hmem
        cases seg' with
        | spec s => simp [Segment.args, FormatSpec.args] at hown
        | _ => trivial
    · obtain ⟨hle', hread'⟩ := ih hmore
      refine ⟨by omega, fun heq seg' hmem => ?_⟩
      obtain rfl | hmem := List.mem_cons.mp hmem
      · exact hread (by omega)
      · exact hread' (by omega) seg' hmem

/-- **What a format puts out** that is read as `vformat` reads it: not more than its text, and if it
is as long as that, every part gets through. -/
lemma fits_of_ok (hread : ∀ seg ∈ segs, seg.Read)
    (h : formatString (segs.flatMap Segment.text) (segs.flatMap Segment.args ++ rest) =
      .ok (out, left)) :
    out.length ≤ (segs.flatMap Segment.output).length ∧
    (out.length = (segs.flatMap Segment.output).length → ∀ seg ∈ segs, seg.Fits) := by
  induction segs generalizing out with
  | nil =>
    obtain ⟨rfl, -⟩ := Prod.mk.inj (Except.ok.inj h)
    exact ⟨le_refl _, fun _ => nofun⟩
  | cons seg segs ih =>
    rw [List.flatMap_cons, List.flatMap_cons, List.append_assoc] at h
    rw [List.flatMap_cons, List.length_append]
    obtain hlt | ⟨text, more, hmore, rfl, hle, hfits⟩ :=
      Segment.fits_of_ok (hread seg List.mem_cons_self) h
    · exact ⟨by omega, fun heq => by omega⟩
    · obtain ⟨hle', hfits'⟩ := ih (fun seg' hmem => hread seg' (List.mem_cons_of_mem _ hmem)) hmore
      rw [List.length_append]
      refine ⟨by omega, fun heq seg' hmem => ?_⟩
      obtain rfl | hmem := List.mem_cons.mp hmem
      · exact hfits (by omega)
      · exact hfits' (by omega) seg' hmem

/-- **When a formatted string is complete.** For every format made of literal text, `%%`, `%@` and
the conversions that `vformat` knows, with the arguments of these and any others behind them: the new
string is the literal text and the full text of each conversion in order, nothing is stored outside
an array, and exactly the arguments of the conversions are taken, if and only if there is no NUL in
the literal text, no `*`, no specification of more than 31 characters, no text of more than 511 bytes
and no `%c` of a NUL. -/
theorem formatString_iff (segs : List Segment) (rest : List FormatArg) :
    formatString (segs.flatMap Segment.text) (segs.flatMap Segment.args ++ rest) =
      .ok (segs.flatMap Segment.output, rest) ↔ ∀ seg ∈ segs, seg.Fits := by
  refine ⟨fun h => ?_, fun h => formatString_of_fits h rest⟩
  have hread := (read_of_ok h).2 (by rw [List.length_append, Nat.add_comm])
  exact (fits_of_ok hread h).2 rfl

/-- A `%s` without flags, width and length modifiers. -/
def plainString (s : CString) : FormatSpec := ⟨[], .absent, [], .string (some s)⟩

/-- The text of a plain `%s` is the string. -/
lemma output_plainString (s : CString) : (plainString s).output = s.bytes := by
  have hexpand : (plainString s).output =
      List.replicate (0 - s.bytes.length) (byte ' ') ++ s.bytes ++ [] := rfl
  rw [hexpand, Nat.zero_sub, List.replicate_zero, List.nil_append, List.append_nil]

/-- **A string of 512 bytes** fills the array of the function, and the terminator is stored behind it:
this is not the complete string. -/
theorem not_formatString :
    ¬∀ (segs : List Segment) (rest : List FormatArg),
      formatString (segs.flatMap Segment.text) (segs.flatMap Segment.args ++ rest) =
        .ok (segs.flatMap Segment.output, rest) := by
  intro h
  have hfree : (0 : UInt8) ∉ List.replicate 512 (byte 'a') := fun hmem =>
    absurd (List.mem_replicate.mp hmem).2 (by decide)
  have hcall := h [.spec (plainString ⟨_, hfree⟩)] []
  have hread := (read_of_ok hcall).2 (by rw [List.length_append, Nat.add_comm])
  have hfits := (fits_of_ok hread hcall).2 rfl _ List.mem_cons_self
  have hlength := hfits.2.2.1
  rw [output_plainString, List.length_replicate] at hlength
  exact absurd hlength (by decide)

end Asteros.CoreFoundation
