import Asteros.Libc.Ascii
import Mathlib.Data.Nat.Digits.Lemmas

set_option autoImplicit false

/-!
# Formatted output into an array

`vformat` of `stdio.c` writing to an array (`fd < 0`), with `vsnprintf` on top. `out_str` stores
only what still fits, but the terminating NUL is then stored at `p` without a check: when the
text fills the array, the NUL lands one past its end. What the array holds afterwards is
therefore partial (`Sink.contents`), and `none` there stands for that store.

## Main definitions

* `VaArg` — what `va_arg` finds.
* `Sink`, `Sink.outStr` — `p`, `rem`, `total` and `out_str`.
* `vformat`, `vsnprintf` — the formatter.
* `decimal` — the decimal text of a `long`.

## Main results

* `vsnprintf_integer` — what a format with one `%ld` or `%lld` stores.
-/

namespace Asteros.Libc

/-- An argument of a variadic call: a register or stack word holding an integer, or a string
pointer. -/
inductive VaArg where
  | word (w : BitVec 64)
  | str (s : Option CString)

/-- `va_arg(ap, long)`; `none` is a read of the wrong type. -/
def vaLong : List VaArg → Option (BitVec 64 × List VaArg)
  | .word w :: ap => some (w, ap)
  | _ => none

/-- `va_arg(ap, int)`, widened to `long`. -/
def vaInt : List VaArg → Option (BitVec 64 × List VaArg)
  | .word w :: ap => some ((w.truncate 32).signExtend 64, ap)
  | _ => none

/-- `va_arg(ap, unsigned int)`, widened to `unsigned long`. -/
def vaUnsigned : List VaArg → Option (BitVec 64 × List VaArg)
  | .word w :: ap => some ((w.truncate 32).zeroExtend 64, ap)
  | _ => none

/-- `va_arg(ap, const char *)`. -/
def vaStr : List VaArg → Option (Option CString × List VaArg)
  | .str s :: ap => some (s, ap)
  | _ => none

/-! ## The array written to -/

/-- The locals of `vformat`: what lies between `buf` and `p`, the room left, and the count of
characters produced. -/
structure Sink where
  /-- What was stored, from `buf` to `p`. -/
  stored : List UInt8
  /-- `rem`. -/
  rem : ℕ
  /-- `total`. -/
  total : ℕ

namespace Sink

/-- `out_str`, which stores the part that fits. -/
def outStr (o : Sink) (s : List UInt8) : Sink where
  stored := o.stored ++ s.take (min s.length o.rem)
  rem := o.rem - min s.length o.rem
  total := o.total + s.length

/-- What an array of `size` bytes holds after `*p = 0`: `none` when the terminator is stored
outside the array. -/
def contents (o : Sink) (size : ℕ) : Option CString :=
  if o.stored.length < size then some (CString.ofBytes o.stored) else none

/-- The sink after `s` was put out with `size` bytes of room. -/
def after (size : ℕ) (s : List UInt8) : Sink where
  stored := s.take size
  rem := size - s.length
  total := s.length

/-- Putting out one more piece. -/
lemma outStr_after (size : ℕ) (s t : List UInt8) :
    (after size s).outStr t = after size (s ++ t) := by
  have hrem : size - s.length - min t.length (size - s.length) = size - (s.length + t.length) := by
    omega
  have htake : t.take (min t.length (size - s.length)) = t.take (size - s.length) := by
    rcases Nat.le_total t.length (size - s.length) with h | h
    · rw [Nat.min_eq_left h, List.take_length, List.take_of_length_le h]
    · rw [Nat.min_eq_right h]
  simp only [after, outStr, List.take_append, List.length_append, hrem, htake]

/-- A text that leaves room for the terminator is what the array holds. -/
lemma contents_after {size : ℕ} {s : List UInt8} (h : s.length < size) :
    (after size s).contents size = some (CString.ofBytes s) := by
  have htake : s.take size = s := List.take_of_length_le h.le
  simp only [contents, after, htake, if_pos h]

/-- A text that fills the array puts the terminator outside it. -/
lemma contents_after_eq_none {size : ℕ} {s : List UInt8} (h : size ≤ s.length) :
    (after size s).contents size = none := by
  have hlen : ¬(s.take size).length < size := by
    rw [List.length_take]
    omega
  rw [contents, after, if_neg hlen]

end Sink

/-! ## Directives -/

/-- The digits that fill `numbuf`, least significant first. -/
def numbuf (digits : ℕ → UInt8) (base uv : ℕ) : List UInt8 :=
  if uv = 0 then [digits 0] else (Nat.digits base uv).map digits

/-- The digits of `"0123456789abcdef"`. -/
def lowerDigit (d : ℕ) : UInt8 := (ascii "0123456789abcdef").getD d 0

/-- The digits of `"0123456789ABCDEF"`. -/
def upperDigit (d : ℕ) : UInt8 := (ascii "0123456789ABCDEF").getD d 0

/-- The flag loop: `0` and `-` in any order and number. -/
def flags : List UInt8 → Bool → Bool → Bool × Bool × List UInt8
  | b :: fmt, zeroPad, leftJustify =>
    if b = byte '0' then flags fmt true leftJustify
    else if b = byte '-' then flags fmt zeroPad true
    else (zeroPad, leftJustify, b :: fmt)
  | [], zeroPad, leftJustify => (zeroPad, leftJustify, [])

/-- A value of type `int`, with the arithmetic wrapping. -/
def toInt32 (n : ℤ) : ℤ := n.bmod (2 ^ 32)

/-- The decimal width. -/
def widthDigits : List UInt8 → ℤ → ℤ × List UInt8
  | b :: fmt, width =>
    if isdigit b then widthDigits fmt (toInt32 (width * 10 + (b.toNat - 48 : ℕ)))
    else (width, b :: fmt)
  | [], width => (width, [])

/-- The length modifiers, of which only the `l`s are counted. -/
def lengthModifiers : List UInt8 → ℕ → ℕ × List UInt8
  | b :: fmt, isLong =>
    if b = byte 'l' then lengthModifiers fmt (isLong + 1)
    else if b = byte 'z' ∨ b = byte 'h' then lengthModifiers fmt isLong
    else (isLong, b :: fmt)
  | [], isLong => (isLong, [])

/-- What precedes the conversion character of a directive. -/
structure Directive where
  zeroPad : Bool
  leftJustify : Bool
  width : ℤ
  isLong : ℕ

/-- The flags, the width and the length modifiers of a directive. -/
def directive (fmt : List UInt8) (ap : List VaArg) :
    Option (Directive × List UInt8 × List VaArg) :=
  let (zeroPad, leftJustify, fmt) := flags fmt false false
  match fmt with
  | b :: rest =>
    if b = byte '*' then do
      let (w, ap) ← vaInt ap
      let (isLong, fmt) := lengthModifiers rest 0
      let width := if w.toInt < 0 then toInt32 (-w.toInt) else w.toInt
      some (⟨zeroPad, leftJustify || w.slt 0, width, isLong⟩, fmt, ap)
    else
      let (width, fmt) := widthDigits (b :: rest) 0
      let (isLong, fmt) := lengthModifiers fmt 0
      some (⟨zeroPad, leftJustify, width, isLong⟩, fmt, ap)
  | [] => some (⟨zeroPad, leftJustify, 0, 0⟩, [], ap)

/-- The loops that put out one padding character at a time. -/
def Sink.pad (o : Sink) (b : UInt8) : ℕ → Sink
  | 0 => o
  | n + 1 => (o.outStr [b]).pad b n

/-- The loop that empties `numbuf` from its end. -/
def Sink.outNumbuf (o : Sink) (buf : List UInt8) : Sink :=
  buf.reverse.foldl (fun o b => o.outStr [b]) o

/-- `%d` and `%i`. -/
def outSigned (d : Directive) (v : BitVec 64) (o : Sink) : Sink :=
  let neg := v.slt 0
  let uv := if neg then -v else v
  let buf := numbuf digitChar 10 uv.toNat
  let len := buf.length + if neg then 1 else 0
  let o := o.pad (if d.zeroPad then byte '0' else byte ' ') (d.width - len).toNat
  let o := if neg then o.outStr [byte '-'] else o
  o.outNumbuf buf

/-- `%u`, `%x`, `%X` and `%o`. -/
def outUnsigned (d : Directive) (conv : UInt8) (uv : ℕ) (o : Sink) : Sink :=
  let base := if conv = byte 'o' then 8 else if conv = byte 'u' then 10 else 16
  let digits := if conv = byte 'X' then upperDigit else lowerDigit
  let buf := numbuf digits base uv
  (o.pad (if d.zeroPad then byte '0' else byte ' ') (d.width - buf.length).toNat).outNumbuf buf

/-- `%s`. -/
def outString (d : Directive) (s : Option CString) (o : Sink) : Sink :=
  let s := match s with
    | some s => s.bytes
    | none => ascii "(null)"
  -- `(size_t)width`
  let width := (d.width % 2 ^ 64).toNat
  let o := if d.leftJustify then o else o.pad (byte ' ') (width - s.length)
  let o := o.outStr s
  if d.leftJustify then o.pad (byte ' ') (width - s.length) else o

/-- The switch on the conversion character. -/
def convert (d : Directive) (conv : UInt8) (ap : List VaArg) (o : Sink) :
    Option (Sink × List VaArg) :=
  if conv = byte 'd' ∨ conv = byte 'i' then do
    let (v, ap) ← if d.isLong ≠ 0 then vaLong ap else vaInt ap
    some (outSigned d v o, ap)
  else if conv = byte 'u' ∨ conv = byte 'x' ∨ conv = byte 'X' ∨ conv = byte 'o' then do
    let (uv, ap) ← if d.isLong ≠ 0 then vaLong ap else vaUnsigned ap
    some (outUnsigned d conv uv.toNat o, ap)
  else if conv = byte 'c' then do
    let (c, ap) ← vaInt ap
    some (o.outStr [UInt8.ofNat c.toNat], ap)
  else if conv = byte 's' then do
    let (s, ap) ← vaStr ap
    some (outString d s o, ap)
  else if conv = byte 'p' then do
    let (v, ap) ← vaLong ap
    some ((o.outStr (ascii "0x")).outNumbuf (numbuf lowerDigit 16 v.toNat), ap)
  else
    some (o.outStr [conv], ap)

/-! ## The formatter -/

/-- The loop of `vformat` over the format, which every round shortens. -/
def vformatLoop : ℕ → List UInt8 → List VaArg → Sink → Option Sink
  | 0, _, _, o => some o
  | _ + 1, [], _, o => some o
  | fuel + 1, b :: fmt, ap, o =>
    if b = byte '%' then do
      let (d, fmt, ap) ← directive fmt ap
      match fmt with
      | [] => some o
      | conv :: fmt => do
        let (o, ap) ← convert d conv ap o
        vformatLoop fuel fmt ap o
    else vformatLoop fuel fmt ap (o.outStr [b])

/-- `vformat` into an array of `bufsize` bytes, before the terminator is stored; `none` is a
`va_arg` of the wrong type. -/
def vformat (bufsize : ℕ) (fmt : CString) (ap : List VaArg) : Option Sink :=
  vformatLoop (fmt.strlen + 1) fmt.bytes ap ⟨[], bufsize, 0⟩

/-- `vsnprintf` into an array of `size > 0` bytes: what the array holds afterwards, `none` when
the call stores outside the array. -/
def vsnprintf (size : ℕ) (fmt : CString) (ap : List VaArg) : Option CString := do
  let o ← vformat size fmt ap
  o.contents size

/-! ## Formatting one integer -/

/-- The decimal text of a `long`. -/
def decimal (v : BitVec 64) : List UInt8 :=
  if v.slt 0 then byte '-' :: (numbuf digitChar 10 (-v).toNat).reverse
  else (numbuf digitChar 10 v.toNat).reverse

/-- Emptying `numbuf` puts its digits out in reverse. -/
lemma outNumbuf_after (size : ℕ) (s buf : List UInt8) :
    (Sink.after size s).outNumbuf buf = Sink.after size (s ++ buf.reverse) := by
  unfold Sink.outNumbuf
  induction buf.reverse generalizing s with
  | nil => rw [List.foldl_nil, List.append_nil]
  | cons b bs ih =>
    rw [List.foldl_cons, Sink.outStr_after, ih, List.append_assoc, List.singleton_append]

/-- A padding loop puts out so many characters. -/
lemma pad_after (size : ℕ) (s : List UInt8) (b : UInt8) (n : ℕ) :
    (Sink.after size s).pad b n = Sink.after size (s ++ List.replicate n b) := by
  induction n generalizing s with
  | zero => rw [Sink.pad, List.replicate_zero, List.append_nil]
  | succ n ih =>
    rw [Sink.pad, Sink.outStr_after, ih, List.replicate_succ, List.append_assoc,
      List.singleton_append]

/-- The padding in front of a number with so many characters. -/
def Directive.padding (d : Directive) (len : ℕ) : List UInt8 :=
  List.replicate (d.width - len).toNat (if d.zeroPad then byte '0' else byte ' ')

/-- The text of `%d` and `%i`. -/
def signedText (d : Directive) (v : BitVec 64) : List UInt8 :=
  d.padding (decimal v).length ++ decimal v

/-- `%d` and `%i` put out that text. -/
lemma outSigned_eq (d : Directive) (v : BitVec 64) (size : ℕ) (s : List UInt8) :
    outSigned d v (Sink.after size s) = Sink.after size (s ++ signedText d v) := by
  unfold outSigned signedText decimal Directive.padding
  by_cases hneg : v.slt 0
  · simp only [hneg, if_true, pad_after, Sink.outStr_after, outNumbuf_after, List.length_cons,
      List.length_reverse, List.append_assoc, List.singleton_append]
  · simp only [hneg, if_false, pad_after, outNumbuf_after, List.length_reverse, Nat.add_zero,
      Bool.false_eq_true, List.append_assoc]

/-- `%ld` without a width puts out the decimal text. -/
lemma outSigned_after {d : Directive} (hd : d.width = 0) (v : BitVec 64) (size : ℕ)
    (s : List UInt8) : outSigned d v (Sink.after size s) = Sink.after size (s ++ decimal v) := by
  have hpadding : d.padding (decimal v).length = [] := by
    rw [Directive.padding, hd, Int.toNat_of_nonpos (by omega), List.replicate_zero]
  rw [outSigned_eq, signedText, hpadding, List.nil_append]

/-- Literal text is put out as it stands. -/
lemma vformatLoop_literal {lit : List UInt8} (hlit : byte '%' ∉ lit) (fuel : ℕ)
    (fmt : List UInt8) (ap : List VaArg) (size : ℕ) (s : List UInt8) :
    vformatLoop (lit.length + fuel) (lit ++ fmt) ap (Sink.after size s) =
      vformatLoop fuel fmt ap (Sink.after size (s ++ lit)) := by
  induction lit generalizing s with
  | nil => simp
  | cons b lit ih =>
    have hb : b ≠ byte '%' := fun h => hlit (by simp [h])
    have hrest : byte '%' ∉ lit := fun h => hlit (List.mem_cons_of_mem _ h)
    rw [List.length_cons, Nat.add_right_comm, List.cons_append, vformatLoop, if_neg hb,
      Sink.outStr_after, ih hrest, List.append_assoc, List.singleton_append]

/-- The text before the formatter starts. -/
lemma after_nil (size : ℕ) : (⟨[], size, 0⟩ : Sink) = Sink.after size [] := by
  simp [Sink.after]

/-- A directive made of `l`s alone. -/
lemma directive_long (n : ℕ) (rest : List UInt8) (ap : List VaArg) :
    directive (List.replicate n (byte 'l') ++ byte 'd' :: rest) ap =
      some (⟨false, false, 0, n⟩, byte 'd' :: rest, ap) := by
  have hlen : ∀ k, lengthModifiers (List.replicate n (byte 'l') ++ byte 'd' :: rest) k =
      (k + n, byte 'd' :: rest) := by
    induction n with
    | zero => intro k; simp [lengthModifiers, byte]
    | succ n ih =>
      intro k
      rw [List.replicate_succ, List.cons_append, lengthModifiers, if_pos rfl, ih]
      congr 1
      omega
  have hhead : ∃ b fmt, List.replicate n (byte 'l') ++ byte 'd' :: rest = b :: fmt ∧
      b ≠ byte '0' ∧ b ≠ byte '-' ∧ b ≠ byte '*' ∧ isdigit b = false := by
    cases n with
    | zero => exact ⟨_, _, rfl, by decide, by decide, by decide, by decide⟩
    | succ n => exact ⟨_, _, rfl, by decide, by decide, by decide, by decide⟩
  obtain ⟨b, fmt, heq, h0, hm, hs, hd⟩ := hhead
  rw [heq] at hlen ⊢
  simp only [directive, flags, if_neg h0, if_neg hm, if_neg hs, widthDigits, hd, hlen, zero_add,
    Bool.false_eq_true, if_false]

/-- **One integer between literals.** A format made of literal text, one `%` with at least one
`l` and `d`, and literal text again stores the decimal text of its argument between the two,
cut to the size of the array. -/
theorem vsnprintf_integer {size n : ℕ} (hn : n ≠ 0) {pre post : List UInt8}
    (hpre : byte '%' ∉ pre) (hpost : byte '%' ∉ post) {fmt : CString}
    (hfmt : fmt.bytes =
      pre ++ byte '%' :: (List.replicate n (byte 'l') ++ byte 'd' :: post)) (v : BitVec 64) :
    vsnprintf size fmt [.word v] = (Sink.after size (pre ++ decimal v ++ post)).contents size := by
  have hlen : fmt.strlen + 1 = pre.length + (post.length + (n + 2) + 1) := by
    simp only [CString.strlen, hfmt, List.length_append, List.length_cons, List.length_replicate]
    omega
  have hconv : convert ⟨false, false, 0, n⟩ (byte 'd') [.word v] (Sink.after size pre) =
      some (Sink.after size (pre ++ decimal v), []) := by
    rw [convert, if_pos (Or.inl rfl), if_pos hn]
    simp only [vaLong, outSigned_after]
    rfl
  have hrest : vformatLoop (post.length + (n + 2)) post [] (Sink.after size (pre ++ decimal v)) =
      some (Sink.after size (pre ++ decimal v ++ post)) := by
    have h := vformatLoop_literal hpost (n + 2) [] [] size (pre ++ decimal v)
    rw [List.append_nil] at h
    rw [h, vformatLoop]
  rw [vsnprintf, vformat, hfmt, hlen, after_nil, vformatLoop_literal hpre, List.nil_append,
    vformatLoop, if_pos rfl, directive_long]
  simp only [Option.bind_eq_bind, Option.bind_some, hconv, hrest]

/-- The digits of a number, most significant first, fold back to it. -/
lemma foldl_digits (n : ℕ) : (Nat.digits 10 n).reverse.foldl (fun a d => a * 10 + d) 0 = n := by
  rw [List.foldl_reverse]
  conv_rhs => rw [← Nat.ofDigits_digits 10 n]
  rw [Nat.ofDigits_eq_foldr]
  congr 1
  funext d a
  rw [Nat.cast_id]
  ring

/-- A number has at most `k` digits exactly when it is below `10 ^ k`. -/
lemma length_numbuf_le_iff {k : ℕ} (hk : k ≠ 0) (n : ℕ) :
    (numbuf digitChar 10 n).length ≤ k ↔ n < 10 ^ k := by
  unfold numbuf
  by_cases h0 : n = 0
  · have hpos : 0 < 10 ^ k := Nat.pow_pos (by decide)
    simp only [h0, if_true, List.length_singleton, hpos, iff_true]
    omega
  · rw [if_neg h0, List.length_map]
    exact Nat.digits_length_le_iff (by decide) n

/-- The characters of `numbuf` are digits. -/
lemma isdigit_of_mem_numbuf {n : ℕ} {b : UInt8} (h : b ∈ numbuf digitChar 10 n) :
    isdigit b = true := by
  unfold numbuf at h
  split at h
  · rw [List.mem_singleton] at h
    subst h
    decide
  · obtain ⟨d, hd, rfl⟩ := List.mem_map.mp h
    exact isdigit_digitChar (Nat.digits_lt_base (by decide) hd)

/-- The characters of a decimal text are digits and the sign. -/
lemma mem_decimal {v : BitVec 64} {b : UInt8} (h : b ∈ decimal v) :
    b = byte '-' ∨ isdigit b = true := by
  unfold decimal at h
  split at h
  · rcases List.mem_cons.mp h with rfl | h
    · exact Or.inl rfl
    · exact Or.inr (isdigit_of_mem_numbuf (List.mem_reverse.mp h))
  · exact Or.inr (isdigit_of_mem_numbuf (List.mem_reverse.mp h))

/-- There is no NUL in a decimal text. -/
lemma decimal_nulFree (v : BitVec 64) : 0 ∉ decimal v := fun h => by
  rcases mem_decimal h with h | h
  · exact absurd h (by decide)
  · exact absurd h (by decide)

/-- Which values have at most `k + 1` characters: `k` digits after the sign, or `k + 1` digits. -/
lemma length_decimal_le_iff {k : ℕ} (hk : k ≠ 0) (v : BitVec 64) :
    (decimal v).length ≤ k + 1 ↔ -(10 ^ k : ℤ) < v.toInt ∧ v.toInt < 10 ^ (k + 1) := by
  have hlt := v.isLt
  have hcast : ∀ j : ℕ, ((10 ^ j : ℕ) : ℤ) = 10 ^ j := fun j => by push_cast; rfl
  have hint := BitVec.toInt_eq_toNat_cond v
  unfold decimal
  by_cases hneg : v.slt 0
  · have hv : v.toInt < 0 := by simpa [BitVec.slt] using hneg
    have hpos : (0 : ℤ) < 10 ^ (k + 1) := by positivity
    have hval : ((-v).toNat : ℤ) = -v.toInt := by
      rw [BitVec.toNat_neg]
      split at hint <;> omega
    rw [if_pos hneg, List.length_cons, List.length_reverse, Nat.add_le_add_iff_right,
      length_numbuf_le_iff hk, ← Int.ofNat_lt, hcast, hval]
    omega
  · have hv : 0 ≤ v.toInt := by simpa [BitVec.slt] using hneg
    have hpos : (0 : ℤ) < 10 ^ k := by positivity
    have hval : (v.toNat : ℤ) = v.toInt := by
      split at hint <;> omega
    rw [if_neg hneg, List.length_reverse, length_numbuf_le_iff (by omega), ← Int.ofNat_lt, hcast,
      hval]
    omega

end Asteros.Libc
