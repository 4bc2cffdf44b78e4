import Asteros.Libc.Stdio

set_option autoImplicit false

/-!
# The bound of formatted output

What a format and its arguments expand to does not depend on the array: `vformat` stores as much of
it as there is room for, and counts all of it. `vsnprintf` then stores a NUL behind what it has
stored, also when the array is full, and returns the count as an `int`.

## Main definitions

* `expansion` — the text that a format expands to.
* `Printed`, `vsnprintfCall` — the calls with all that they store and return.
* `Bounded` — a call of `vsnprintf` as it should be.

## Main results

* `vformat_eq` — the formatter puts out the expansion, whatever the room.
* `bounded_iff` — when a call of `vsnprintf` is as it should be.
-/

namespace Asteros.Libc

/-! ## Texts -/

/-- The text of `%u`, `%x`, `%X` and `%o`. -/
def unsignedText (d : Directive) (conv : UInt8) (uv : ℕ) : List UInt8 :=
  let base := if conv = byte 'o' then 8 else if conv = byte 'u' then 10 else 16
  let digits := if conv = byte 'X' then upperDigit else lowerDigit
  let buf := numbuf digits base uv
  d.padding buf.length ++ buf.reverse

/-- The text of `%s`. -/
def stringText (d : Directive) (s : Option CString) : List UInt8 :=
  let s := match s with
    | some s => s.bytes
    | none => ascii "(null)"
  let spaces := List.replicate ((d.width % 2 ^ 64).toNat - s.length) (byte ' ')
  if d.leftJustify then s ++ spaces else spaces ++ s

/-- The text of a conversion. -/
def conversion (d : Directive) (conv : UInt8) (ap : List VaArg) :
    Option (List UInt8 × List VaArg) :=
  if conv = byte 'd' ∨ conv = byte 'i' then do
    let (v, ap) ← if d.isLong ≠ 0 then vaLong ap else vaInt ap
    some (signedText d v, ap)
  else if conv = byte 'u' ∨ conv = byte 'x' ∨ conv = byte 'X' ∨ conv = byte 'o' then do
    let (uv, ap) ← if d.isLong ≠ 0 then vaLong ap else vaUnsigned ap
    some (unsignedText d conv uv.toNat, ap)
  else if conv = byte 'c' then do
    let (c, ap) ← vaInt ap
    some ([UInt8.ofNat c.toNat], ap)
  else if conv = byte 's' then do
    let (s, ap) ← vaStr ap
    some (stringText d s, ap)
  else if conv = byte 'p' then do
    let (v, ap) ← vaLong ap
    some (ascii "0x" ++ (numbuf lowerDigit 16 v.toNat).reverse, ap)
  else some ([conv], ap)

/-- The text of the rest of a format. -/
def expansionLoop : ℕ → List UInt8 → List VaArg → Option (List UInt8)
  | 0, _, _ => some []
  | _ + 1, [], _ => some []
  | fuel + 1, b :: fmt, ap =>
    if b = byte '%' then do
      let (d, fmt, ap) ← directive fmt ap
      match fmt with
      | [] => some []
      | conv :: fmt => do
        let (text, ap) ← conversion d conv ap
        (expansionLoop fuel fmt ap).map (text ++ ·)
    else (expansionLoop fuel fmt ap).map (b :: ·)

/-- The text that a format expands to; `none` is a `va_arg` of the wrong type. -/
def expansion (fmt : CString) (ap : List VaArg) : Option (List UInt8) :=
  expansionLoop (fmt.strlen + 1) fmt.bytes ap

/-- A character of a format that is no conversion. -/
lemma expansionLoop_literal {b : UInt8} (hb : b ≠ byte '%') (fuel : ℕ) (p : List UInt8)
    (ap : List VaArg) : expansionLoop (fuel + 1) (b :: p) ap =
      (expansionLoop fuel p ap).map (b :: ·) := by
  rw [expansionLoop, if_neg hb]

/-! ## Putting out the text -/

/-- The unsigned conversions. -/
lemma outUnsigned_eq (d : Directive) (conv : UInt8) (uv size : ℕ) (s : List UInt8) :
    outUnsigned d conv uv (Sink.after size s) =
      Sink.after size (s ++ unsignedText d conv uv) := by
  simp only [outUnsigned, unsignedText, pad_after, outNumbuf_after, Directive.padding,
    List.append_assoc]

/-- The conversion of a string. -/
lemma outString_eq (d : Directive) (str : Option CString) (size : ℕ) (s : List UInt8) :
    outString d str (Sink.after size s) = Sink.after size (s ++ stringText d str) := by
  unfold outString stringText
  cases d.leftJustify
  · cases str <;>
      simp only [Bool.false_eq_true, if_false, pad_after, Sink.outStr_after, List.append_assoc]
  · cases str <;> simp only [if_true, pad_after, Sink.outStr_after, List.append_assoc]

/-- A conversion puts out its text. -/
lemma convert_eq (d : Directive) (conv : UInt8) (ap : List VaArg) (size : ℕ) (s : List UInt8) :
    convert d conv ap (Sink.after size s) =
      (conversion d conv ap).map fun r => (Sink.after size (s ++ r.1), r.2) := by
  unfold convert conversion
  split_ifs
  · cases vaLong ap <;> simp [outSigned_eq]
  · cases vaInt ap <;> simp [outSigned_eq]
  · cases vaLong ap <;> simp [outUnsigned_eq]
  · cases vaUnsigned ap <;> simp [outUnsigned_eq]
  · cases vaInt ap <;> simp [Sink.outStr_after]
  · cases vaStr ap <;> simp [outString_eq]
  · cases vaLong ap <;> simp [Sink.outStr_after, outNumbuf_after]
  · simp [Sink.outStr_after]

/-- The loop puts out the text of the rest of the format. -/
lemma vformatLoop_eq (fuel : ℕ) (fmt : List UInt8) (ap : List VaArg) (size : ℕ) (s : List UInt8) :
    vformatLoop fuel fmt ap (Sink.after size s) =
      (expansionLoop fuel fmt ap).map fun e => Sink.after size (s ++ e) := by
  induction fuel generalizing fmt ap s with
  | zero => simp [vformatLoop, expansionLoop]
  | succ fuel ih =>
    cases fmt with
    | nil => simp [vformatLoop, expansionLoop]
    | cons b fmt =>
      rw [vformatLoop, expansionLoop]
      split_ifs
      · cases directive fmt ap with
        | none => rfl
        | some r =>
          obtain ⟨d, rest, ap⟩ := r
          cases rest with
          | nil => simp
          | cons conv rest =>
            simp only [Option.bind_eq_bind, Option.bind_some, convert_eq]
            cases conversion d conv ap with
            | none => rfl
            | some r =>
              simp only [Option.map_some, Option.bind_some, ih, Option.map_map]
              congr 1
              funext e
              simp
      · rw [Sink.outStr_after, ih, Option.map_map]
        congr 1
        funext e
        simp

/-- **The formatter puts out the expansion**, as far as there is room, and counts all of it. -/
theorem vformat_eq (size : ℕ) (fmt : CString) (ap : List VaArg) :
    vformat size fmt ap = (expansion fmt ap).map (Sink.after size) := by
  rw [vformat, after_nil, vformatLoop_eq]
  rfl

/-! ## The calls -/

/-- What a call stores from `str` on, one byte after another, and what it returns. -/
structure Printed where
  /-- The bytes stored at `str[0]`, `str[1]` and so on. -/
  stored : List UInt8
  /-- The value returned. -/
  result : ℤ

/-- `vsnprintf` for any size, with what it returns. -/
def vsnprintfCall (size : ℕ) (fmt : CString) (ap : List VaArg) : Option Printed := do
  let o ← vformat size fmt ap
  some ⟨if size > 0 then o.stored ++ [0] else o.stored, toInt32 o.total⟩

/-- A call of `vsnprintf` as it should be, for a text that the format expands to. -/
structure Bounded (size : ℕ) (text : List UInt8) (p : Printed) : Prop where
  /-- It stores nothing behind the array. -/
  inBounds : p.stored.length ≤ size
  /-- The array has as much of the text as leaves room for a NUL, and the NUL. -/
  terminated : 0 < size → p.stored.take (min text.length (size - 1) + 1) =
    text.take (min text.length (size - 1)) ++ [0]
  /-- The length of the text is returned. -/
  result : p.result = text.length

/-- A value below `2 ^ 31` is the same as an `int`. -/
lemma toInt32_eq_iff (n : ℕ) : toInt32 n = n ↔ n < 2 ^ 31 := by
  unfold toInt32
  rw [Int.bmod_def]
  split_ifs <;> omega

/-- What a call stores and returns, by the text. -/
lemma vsnprintfCall_eq {fmt : CString} {ap : List VaArg} {text : List UInt8}
    (htext : expansion fmt ap = some text) (size : ℕ) : vsnprintfCall size fmt ap =
      some ⟨if size > 0 then text.take size ++ [0] else [], toInt32 text.length⟩ := by
  rw [vsnprintfCall, vformat_eq, htext]
  simp only [Option.map_some, Option.bind_eq_bind, Option.bind_some, Sink.after]
  split_ifs with hsize
  · rfl
  · rw [show size = 0 by omega, List.take_zero]

/-- **A call of `vsnprintf` is as it should be** exactly if the text is shorter than the array, or
the array is empty, and the length of the text is an `int`. -/
theorem bounded_iff {fmt : CString} {ap : List VaArg} {text : List UInt8}
    (htext : expansion fmt ap = some text) (size : ℕ) :
    (∃ p, vsnprintfCall size fmt ap = some p ∧ Bounded size text p) ↔
      (size = 0 ∨ text.length < size) ∧ text.length < 2 ^ 31 := by
  rw [vsnprintfCall_eq htext]
  constructor
  · rintro ⟨p, hp, hbounded⟩
    cases hp
    have hresult := hbounded.result
    dsimp only at hresult
    refine ⟨?_, (toInt32_eq_iff text.length).mp hresult⟩
    have hin := hbounded.inBounds
    by_cases hsize : size > 0
    · rw [if_pos hsize, List.length_append, List.length_take, List.length_singleton] at hin
      omega
    · omega
  · rintro ⟨hfits, hint⟩
    have hresult := (toInt32_eq_iff text.length).mpr hint
    refine ⟨_, rfl, ?_, ?_, by dsimp only; exact hresult⟩
    · dsimp only
      split_ifs with hsize
      · rw [List.length_append, List.length_take, List.length_singleton]
        omega
      · exact Nat.zero_le _
    · intro hsize
      have hlt : text.length < size := hfits.resolve_left (by omega)
      have hmin : min text.length (size - 1) = text.length := by omega
      rw [hmin, if_pos hsize, List.take_of_length_le hlt.le, List.take_length,
        List.take_of_length_le (by simp)]

/-- Text that is shorter than the array. -/
theorem bounded_iff_short : ∃ p, vsnprintfCall 8 (.ofBytes (ascii "abc")) [] = some p ∧
    Bounded 8 (ascii "abc") p :=
  (bounded_iff (by decide +kernel) 8).mpr (by decide +kernel)

/-- **Four characters in an array of four** put the NUL behind the array. -/
theorem not_bounded_full :
    ¬∀ (size : ℕ) (fmt : CString) (ap : List VaArg) (text : List UInt8),
      expansion fmt ap = some text →
      ∃ p, vsnprintfCall size fmt ap = some p ∧ Bounded size text p := by
  intro h
  have hexp : expansion (.ofBytes (ascii "abcd")) [] = some (ascii "abcd") := by decide +kernel
  obtain ⟨p, hp, hbounded⟩ := h 4 _ [] _ hexp
  rw [vsnprintfCall_eq hexp] at hp
  cases hp
  exact absurd hbounded.inBounds (by decide)

end Asteros.Libc
