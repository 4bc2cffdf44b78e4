import Asteros.CoreFoundation.PropertyListReader

set_option autoImplicit false

/-!
# Formatting and exporting strings

Two parts of `CFString.c` that the Foundation writers use: the formatter, which cuts the format
into single conversions and hands each to `vsnprintf` with an array of 512 bytes, and the length
in characters, from which `-dataUsingEncoding:` sizes its buffer. That buffer has no room of its
own for the terminator that `CFStringGetCString` stores; the first character of a document, which
takes one of the four bytes reserved for it, is what makes room.

## Main definitions

* `cfStringCreateWithFormatAndArguments` — the formatter.
* `cfStringGetLength` — the length in decoded characters.
* `dataUsingEncoding` — the bytes of a string as data.

## Main results

* `format_integer` — one `%ld` between literals.
* `dataUsingEncoding_of_ascii` — a string that starts with an ASCII character is exported.
-/

namespace Asteros.CoreFoundation

open Asteros.Libc

/-! ## The formatter -/

/-- The flags, width, precision and length modifiers after a `%`, the conversion character, and
what follows it; `none` when the format ends before. -/
def conversion (p : List UInt8) : Option (List UInt8 × UInt8 × List UInt8) :=
  let q := (p.dropWhile fun b => (ascii "-+ #0").contains b).dropWhile isdigit
  let q := if q.head? = some (byte '.') then q.tail.dropWhile isdigit else q
  let q := q.dropWhile fun b => (ascii "lhzjtL").contains b
  match q with
  | [] => none
  | conv :: rest => some (p.take (p.length - q.length), conv, rest)

/-- The arguments that are left after a format with a single conversion: `vsnprintf` advances the
caller's `va_list`. -/
def argsAfter (miniFmt : List UInt8) (args : List VaArg) : Option (List VaArg) := do
  let (d, fmt, args) ← directive miniFmt.tail args
  match fmt with
  | [] => some args
  | conv :: _ => (convert d conv args ⟨[], 0, 0⟩).map Prod.snd

/-- One conversion, through `miniFmt[32]` and `tmp[512]`. A `%@` reads an object, which the
arguments do not have. -/
def formatConversion (mods : List UInt8) (conv : UInt8) (args : List VaArg) :
    Except Fault (List UInt8 × List VaArg) :=
  let miniFmt := (byte '%' :: mods ++ [conv]).take 31
  if conv = byte '%' then .ok ([byte '%'], args)
  else if conv = byte '@' then .error .outOfBounds
  else match vsnprintf 512 (CString.ofBytes miniFmt) args, argsAfter miniFmt args with
    | some tmp, some args => .ok (tmp.bytes, args)
    | _, _ => .error .outOfBounds

/-- The loop over the format, which every round shortens. -/
def formatLoop : ℕ → List UInt8 → List VaArg → Except Fault (List UInt8)
  | 0, _, _ => .ok []
  | _ + 1, [], _ => .ok []
  | fuel + 1, b :: p, args =>
    if b ≠ byte '%' then do
      let rest ← formatLoop fuel p args
      .ok (b :: rest)
    else match conversion p with
      | none => .ok []
      | some (mods, conv, p) => do
        let (text, args) ← formatConversion mods conv args
        let rest ← formatLoop fuel p args
        .ok (text ++ rest)

/-- `CFStringCreateWithFormatAndArguments`. -/
def cfStringCreateWithFormatAndArguments (format : CString) (args : List VaArg) :
    Except Fault (List UInt8) :=
  formatLoop (format.strlen + 1) format.bytes args

/-- Literal text is copied. -/
lemma formatLoop_literal {lit : List UInt8} (hlit : byte '%' ∉ lit) (fuel : ℕ) (p : List UInt8)
    (args : List VaArg) : formatLoop (lit.length + fuel) (lit ++ p) args =
      (formatLoop fuel p args).map (lit ++ ·) := by
  induction lit with
  | nil =>
    rw [List.length_nil, Nat.zero_add, List.nil_append]
    cases formatLoop fuel p args <;> rfl
  | cons b lit ih =>
    rw [List.mem_cons, not_or] at hlit
    rw [List.length_cons, Nat.add_right_comm, List.cons_append, formatLoop,
      if_pos (Ne.symm hlit.1), ih hlit.2]
    cases formatLoop fuel p args <;> rfl

/-- A `long` has at most twenty characters. -/
lemma length_decimal_le (v : BitVec 64) : (decimal v).length ≤ 20 := by
  rw [length_decimal_le_iff (k := 19) (by decide)]
  have hle := BitVec.le_toInt v
  have hlt := BitVec.toInt_lt (x := v)
  norm_num at hle hlt ⊢
  omega

/-- One `%ld`. -/
lemma formatConversion_long (v : BitVec 64) :
    formatConversion (ascii "l") (byte 'd') [.word v] = .ok (decimal v, []) := by
  have hmini : (byte '%' :: ascii "l" ++ [byte 'd']).take 31 = ascii "%ld" := by decide
  have hprint : vsnprintf 512 (CString.ofBytes (ascii "%ld")) [.word v] =
      some (CString.ofBytes (decimal v)) := by
    have hfmt : (CString.ofBytes (ascii "%ld")).bytes =
        [] ++ byte '%' :: (List.replicate 1 (byte 'l') ++ byte 'd' :: []) := by decide
    rw [vsnprintf_integer (by decide) (by simp) (by simp) hfmt, List.nil_append, List.append_nil]
    exact Sink.contents_after (lt_of_le_of_lt (length_decimal_le v) (by decide))
  have hargs : argsAfter (ascii "%ld") [.word v] = some [] := by
    have hdir := directive_long 1 [] [.word v]
    rw [argsAfter, show (ascii "%ld").tail = List.replicate 1 (byte 'l') ++ byte 'd' :: [] from rfl,
      hdir]
    rfl
  rw [formatConversion, hmini, if_neg (by decide), if_neg (by decide), hprint, hargs]
  simp only [CString.bytes_ofBytes_of_nulFree (decimal_nulFree v)]

/-- **One integer between literals.** -/
theorem format_integer {pre post : List UInt8} (hpre : byte '%' ∉ pre) (hpost : byte '%' ∉ post)
    {format : CString} (hformat : format.bytes = pre ++ byte '%' :: (ascii "ld" ++ post))
    (v : BitVec 64) : cfStringCreateWithFormatAndArguments format [.word v] =
      .ok (pre ++ decimal v ++ post) := by
  have hlen : format.strlen + 1 = pre.length + ((post.length + 3) + 1) := by
    simp only [CString.strlen, hformat, List.length_append, List.length_cons,
      show (ascii "ld").length = 2 from rfl]
    omega
  have hconv : conversion (ascii "ld" ++ post) = some (ascii "l", byte 'd', post) := by
    have hcat : ascii "ld" ++ post = byte 'l' :: byte 'd' :: post := rfl
    simp only [conversion, hcat, List.dropWhile_cons,
      show (ascii "-+ #0").contains (byte 'l') = false by decide,
      show isdigit (byte 'l') = false by decide, List.head?_cons,
      show (some (byte 'l') = some (byte '.')) = False by decide,
      show (ascii "lhzjtL").contains (byte 'l') = true by decide,
      show (ascii "lhzjtL").contains (byte 'd') = false by decide, Bool.false_eq_true, if_false,
      if_true, List.length_cons]
    rw [show post.length + 1 + 1 - (post.length + 1) = 1 by omega]
    rfl
  have hpostLoop : formatLoop (post.length + 3) post [] = .ok post := by
    have h := formatLoop_literal hpost 3 [] []
    rw [List.append_nil] at h
    rw [h, formatLoop]
    simp [Except.map]
  rw [cfStringCreateWithFormatAndArguments, hformat, hlen, formatLoop_literal hpre, formatLoop,
    if_neg (by decide), hconv]
  simp only [formatConversion_long, ok_bind, hpostLoop, Except.map, List.append_assoc]

/-! ## Exporting a string -/

/-- `*consumed` of `utf8Decode`, which reads ahead only up to the terminator. -/
def utf8Consumed (p : List UInt8) : ℕ :=
  let at' := fun i => (p.drop i).headD 0
  if at' 0 < 0x80 then 1
  else if at' 0 &&& 0xE0 = 0xC0 ∧ at' 1 ≠ 0 then 2
  else if at' 0 &&& 0xF0 = 0xE0 ∧ at' 1 ≠ 0 ∧ at' 2 ≠ 0 then 3
  else if at' 0 &&& 0xF8 = 0xF0 ∧ at' 1 ≠ 0 ∧ at' 2 ≠ 0 ∧ at' 3 ≠ 0 then 4
  else 1

/-- The loop of `CFStringGetLength`, `skip` bytes of the current character being consumed
already. -/
def lengthLoop : ℕ → List UInt8 → ℕ
  | _, [] => 0
  | skip + 1, _ :: s => lengthLoop skip s
  | 0, b :: s => lengthLoop (utf8Consumed (b :: s) - 1) s + 1

/-- `CFStringGetLength`. -/
def cfStringGetLength (s : List UInt8) : ℕ := lengthLoop 0 s

/-- `CFStringGetMaximumSizeForEncoding` for UTF-8. -/
def cfStringGetMaximumSizeForEncoding (length : ℕ) : ℕ := length * 4

/-- `-dataUsingEncoding:`. `CFStringGetCString` is told one byte more than the buffer has; when it
refuses nevertheless, the buffer is read without having been written. -/
def dataUsingEncoding (s : List UInt8) : Except Fault (List UInt8) :=
  let maxBytes := cfStringGetMaximumSizeForEncoding (cfStringGetLength s)
  if s.length + 1 > maxBytes + 1 then .error .outOfBounds
  else if s.length + 1 > maxBytes then .error .outOfBounds
  else .ok (CString.ofBytes s).bytes

/-- A character takes at most four bytes. -/
lemma utf8Consumed_le (p : List UInt8) : utf8Consumed p ≤ 4 := by
  simp only [utf8Consumed]
  split_ifs <;> omega

/-- Four bytes for each character are enough. -/
lemma length_le_lengthLoop (skip : ℕ) (s : List UInt8) :
    s.length ≤ skip + 4 * lengthLoop skip s := by
  induction s generalizing skip with
  | nil => simp
  | cons b s ih =>
    cases skip with
    | succ skip =>
      have h := ih skip
      rw [lengthLoop, List.length_cons]
      omega
    | zero =>
      have h := ih (utf8Consumed (b :: s) - 1)
      have hle := utf8Consumed_le (b :: s)
      rw [lengthLoop, List.length_cons]
      omega

/-- **A NUL-free string that starts with an ASCII character is exported as it is**: its first
character leaves three bytes of room. -/
theorem dataUsingEncoding_of_ascii {b : UInt8} {s : List UInt8} (hb : b < 0x80)
    (hnul : 0 ∉ b :: s) : dataUsingEncoding (b :: s) = .ok (b :: s) := by
  have hone : utf8Consumed (b :: s) = 1 := by
    simp [utf8Consumed, hb]
  have hlen : cfStringGetLength (b :: s) = lengthLoop 0 s + 1 := by
    rw [cfStringGetLength, lengthLoop, hone]
  have hle := length_le_lengthLoop 0 s
  simp only [dataUsingEncoding, cfStringGetMaximumSizeForEncoding, hlen, List.length_cons]
  rw [if_neg (by omega), if_neg (by omega), CString.bytes_ofBytes_of_nulFree hnul]

end Asteros.CoreFoundation
