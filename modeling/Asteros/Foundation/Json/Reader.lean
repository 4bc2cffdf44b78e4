import Asteros.Foundation.PropertyListReader

set_option autoImplicit false

/-!
# The JSON reader

The parser half of `NSJSONSerialization.m`. It works on a copy of the data with a NUL after it and
never looks at a length, so a cursor is what is left of that copy, the NUL at its end included: a
read needs a byte there, and a step must leave one. The characters of a string are collected in an
array that is enlarged before each of them.

## Main definitions

* `Output` — the array a string is collected in.
* `parseJSONString`, `parseJSONNumber` — the leaves.
* `parseJSONValue`, `parseJSONObject`, `parseJSONArray` — the parser.
* `jsonObjectWithData` — the whole document.
-/

namespace Asteros.Foundation.Json

open Asteros.Libc Asteros.CoreFoundation

variable {δ : Type}

/-! ## The cursor -/

/-- The copy of the data, with the terminator after it. -/
def terminated (s : List UInt8) : Cursor := s ++ [0]

/-- `*pp += n`. The cursor stays at or before the terminator. -/
def step (c : Cursor) (n : ℕ) : Except Fault Cursor :=
  if n < c.length then .ok (c.drop n) else .error .outOfBounds

/-- The loops `while (test(**pp)) (*pp)++`. -/
def scan (test : UInt8 → Bool) (c : Cursor) : Except Fault Cursor :=
  match c.dropWhile test with
  | [] => .error .outOfBounds
  | b :: c => .ok (b :: c)

/-- `skipWS`. -/
def skipWS (c : Cursor) : Except Fault Cursor := scan isWs c

/-- `strncmp(*pp, lit, strlen(lit)) == 0`, which reads up to the first difference. -/
def strncmp : Cursor → List UInt8 → Except Fault Bool
  | _, [] => .ok true
  | [], _ :: _ => .error .outOfBounds
  | b :: c, b' :: lit => if b = b' then strncmp c lit else .ok false

/-! ## Strings -/

/-- The array `buf`: its bytes up to `oi`, and `cap`. -/
structure Output where
  stored : List UInt8
  cap : ℕ

/-- `buf[oi++] = b`. -/
def Output.put (o : Output) (b : UInt8) : Except Fault Output :=
  if o.stored.length < o.cap then .ok ⟨o.stored ++ [b], o.cap⟩ else .error .outOfBounds

/-- Several of them. -/
def Output.putAll : Output → List UInt8 → Except Fault Output
  | o, [] => .ok o
  | o, b :: bs => do
    let o ← o.put b
    o.putAll bs

/-- `if (oi + 6 >= cap) { cap *= 2; buf = realloc(buf, cap); }`. -/
def Output.grow (o : Output) : Output :=
  if o.cap ≤ o.stored.length + 6 then ⟨o.stored, o.cap * 2⟩ else o

/-- What is stored for the character after a backslash, if it is not a `u`. -/
def unescaped (b : UInt8) : UInt8 :=
  if b = byte 'b' then 8
  else if b = byte 'f' then 12
  else if b = byte 'n' then byte '\n'
  else if b = byte 'r' then byte '\r'
  else if b = byte 't' then byte '\t'
  else b

/-- The code point `(unsigned int)strtoul(hex, NULL, 16)`. -/
def codePoint (hex : List UInt8) : BitVec 32 := (strtoul (CString.ofBytes hex) 16).1.truncate 32

/-- The bytes that are stored for a code point. -/
def encodeCodePoint (cp : BitVec 32) : List UInt8 :=
  let toByte := fun v : BitVec 32 => UInt8.ofBitVec (v.truncate 8)
  if cp < 0x80 then [toByte cp]
  else if cp < 0x800 then [toByte (0xC0 ||| cp >>> 6), toByte (0x80 ||| cp &&& 0x3F)]
  else [toByte (0xE0 ||| cp >>> 12), toByte (0x80 ||| cp >>> 6 &&& 0x3F),
    toByte (0x80 ||| cp &&& 0x3F)]

/-- The `switch` over the character after a backslash. -/
def readEscape (c : Cursor) (o : Output) : Except Fault (Cursor × Output) := do
  let b ← deref c 0
  if b = byte 'u' then
    let h₁ ← deref c 1
    let h₂ ← deref c 2
    let h₃ ← deref c 3
    let h₄ ← deref c 4
    let c ← step c 4
    let o ← o.putAll (encodeCodePoint (codePoint [h₁, h₂, h₃, h₄]))
    .ok (c, o)
  else
    let o ← o.put (unescaped b)
    .ok (c, o)

/-- The loop of `parseJSONString`, every round of which moves the cursor. -/
def stringLoop : ℕ → Cursor → Output → Except Fault (Cursor × Output)
  | 0, _, _ => .error .outOfFuel
  | fuel + 1, c, o => do
    let b ← deref c 0
    if b = 0 ∨ b = byte '"' then .ok (c, o)
    else if b = byte '\\' then
      let c ← step c 1
      let (c, o) ← readEscape c o.grow
      let c ← step c 1
      stringLoop fuel c o
    else
      let o ← o.grow.put b
      let c ← step c 1
      stringLoop fuel c o

/-- `parseJSONString`; `none` is `nil`. -/
def parseJSONString (c : Cursor) : Except Fault (Option (List UInt8 × Cursor)) := do
  let b ← deref c 0
  if b ≠ byte '"' then .ok none
  else
    let c ← step c 1
    let (c, o) ← stringLoop c.length c ⟨[], 64⟩
    let b ← deref c 0
    if b ≠ byte '"' then .ok none
    else
      let c ← step c 1
      let o ← o.put 0
      .ok (some (initWithUTF8String o.stored, c))

/-! ## Numbers -/

/-- `if (test(**pp)) (*pp)++`, with the outcome of the test. -/
def skipIf (test : UInt8 → Bool) (c : Cursor) : Except Fault (Bool × Cursor) := do
  let b ← deref c 0
  if test b then
    let c ← step c 1
    .ok (true, c)
  else .ok (false, c)

/-- The fraction of a number, if there is one. -/
def skipFraction (c : Cursor) : Except Fault (Bool × Cursor) := do
  let (present, c) ← skipIf (· == byte '.') c
  if present then
    let c ← scan isdigit c
    .ok (true, c)
  else .ok (false, c)

/-- The exponent of a number, if there is one. -/
def skipExponent (c : Cursor) : Except Fault (Bool × Cursor) := do
  let (present, c) ← skipIf (fun b => b == byte 'e' || b == byte 'E') c
  if present then
    let (_, c) ← skipIf (fun b => b == byte '+' || b == byte '-') c
    let c ← scan isdigit c
    .ok (true, c)
  else .ok (false, c)

/-- `parseJSONNumber`, whose characters are copied to `tmp[64]`. -/
def parseJSONNumber (lib : Library δ) (start : Cursor) : Except Fault (Parsed δ) := do
  let (_, c) ← skipIf (· == byte '-') start
  let c ← scan isdigit c
  let (hasFraction, c) ← skipFraction c
  let (hasExponent, c) ← skipExponent c
  let len := start.length - c.length
  if 64 ≤ len then .ok none
  else
    let tmp := CString.ofBytes (start.take len)
    if hasFraction || hasExponent then .ok (some (.real (lib.strtod tmp), c))
    else .ok (some (.integer (strtol tmp 10).1, c))

/-! ## Values -/

/-- The cases for `true`, `false` and `null`. -/
def parseLiteral (c : Cursor) (lit : List UInt8) (value : CFObject δ) :
    Except Fault (Parsed δ) := do
  if ← strncmp c lit then
    let c ← step c lit.length
    .ok (some (value, c))
  else .ok none

mutual
/-- `parseJSONValue`. -/
def parseJSONValue (lib : Library δ) : ℕ → Cursor → Except Fault (Parsed δ)
  | 0, _ => .error .outOfFuel
  | fuel + 1, c => do
    let c ← skipWS c
    let b ← deref c 0
    if b = byte '{' then parseJSONObject lib fuel c
    else if b = byte '[' then parseJSONArray lib fuel c
    else if b = byte '"' then
      let r ← parseJSONString c
      .ok (r.map fun r => (.string r.1, r.2))
    else if b = byte 't' then parseLiteral c (ascii "true") (.boolean true)
    else if b = byte 'f' then parseLiteral c (ascii "false") (.boolean false)
    else if b = byte 'n' then parseLiteral c (ascii "null") .null
    else if b = byte '-' ∨ isdigit b then parseJSONNumber lib c
    else .ok none

/-- `parseJSONObject`. -/
def parseJSONObject (lib : Library δ) : ℕ → Cursor → Except Fault (Parsed δ)
  | 0, _ => .error .outOfFuel
  | fuel + 1, c => do
    let c ← step c 1
    let c ← skipWS c
    let (closed, c) ← skipIf (· == byte '}') c
    if closed then .ok (some (.dictionary [], c))
    else objectLoop lib fuel [] c

/-- The loop of `parseJSONObject`, with the entries read so far. -/
def objectLoop (lib : Library δ) : ℕ → Entries δ → Cursor → Except Fault (Parsed δ)
  | 0, _, _ => .error .outOfFuel
  | fuel + 1, d, c => do
    let c ← skipWS c
    match ← parseJSONString c with
    | none => .ok none
    | some (key, c) => do
      let c ← skipWS c
      let (colon, c) ← skipIf (· == byte ':') c
      if !colon then .ok none
      else do
        let c ← skipWS c
        match ← parseJSONValue lib fuel c with
        | none => .ok none
        | some (value, c) => do
          let d := cfDictionarySetValue d key value
          let c ← skipWS c
          let (comma, c) ← skipIf (· == byte ',') c
          if comma then objectLoop lib fuel d c
          else do
            let (closed, c) ← skipIf (· == byte '}') c
            .ok (if closed then some (.dictionary d, c) else none)

/-- `parseJSONArray`. -/
def parseJSONArray (lib : Library δ) : ℕ → Cursor → Except Fault (Parsed δ)
  | 0, _ => .error .outOfFuel
  | fuel + 1, c => do
    let c ← step c 1
    let c ← skipWS c
    let (closed, c) ← skipIf (· == byte ']') c
    if closed then .ok (some (.array [], c))
    else arrayLoop lib fuel [] c

/-- The loop of `parseJSONArray`, with the values read so far. -/
def arrayLoop (lib : Library δ) : ℕ → List (CFObject δ) → Cursor → Except Fault (Parsed δ)
  | 0, _, _ => .error .outOfFuel
  | fuel + 1, a, c => do
    let c ← skipWS c
    match ← parseJSONValue lib fuel c with
    | none => .ok none
    | some (value, c) => do
      let a := a ++ [value]
      let c ← skipWS c
      let (comma, c) ← skipIf (· == byte ',') c
      if comma then arrayLoop lib fuel a c
      else do
        let (closed, c) ← skipIf (· == byte ']') c
        .ok (if closed then some (.array a, c) else none)
end

/-- `+JSONObjectWithData:options:error:`; `none` is `nil`. Every three rounds of the parser consume
a character. -/
def jsonObjectWithData (lib : Library δ) (data : List UInt8) :
    Except Fault (Option (CFObject δ)) := do
  let p ← skipWS (terminated data)
  let b ← deref p 0
  if b = byte '{' ∨ b = byte '[' then do
    let result ← parseJSONValue lib (3 * p.length) p
    .ok (result.map Prod.fst)
  else .ok none

end Asteros.Foundation.Json
