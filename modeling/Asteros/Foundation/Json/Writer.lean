import Asteros.Foundation.Json.Reader

set_option autoImplicit false

/-!
# The JSON writer

The writer half of `NSJSONSerialization.m`. A string is escaped in an array that has six bytes for
each of its characters, into which control characters go through `snprintf`; values that have no
JSON form are written as nothing.

## Main definitions

* `appendJSONEscapedString` — a string.
* `writeJSONValue` — a value.
* `dataWithJSONObject` — the whole document.
-/

namespace Asteros.Foundation.Json

open Asteros.Libc Asteros.CoreFoundation

variable {δ : Type}

/-- `oi += snprintf(escaped + oi, size, fmt, ...)`. The terminator must fit as well, and `oi` must
not move beyond what was stored. -/
def Output.snprintf (o : Output) (size : ℕ) (fmt : CString) (args : List VaArg) :
    Except Fault Output :=
  match vformat size fmt args with
  | none => .error .outOfBounds
  | some sink =>
    if sink.total < size ∧ o.stored.length + sink.total + 1 ≤ o.cap then
      .ok ⟨o.stored ++ sink.stored, o.cap⟩
    else .error .outOfBounds

/-- The format for a control character. -/
def unicodeFormat : CString := CString.ofBytes (ascii "\\u%04x")

/-- The `switch` over a character of the string. -/
def escapeChar (c : UInt8) (o : Output) : Except Fault Output :=
  if c = byte '"' then o.putAll (ascii "\\\"")
  else if c = byte '\\' then o.putAll (ascii "\\\\")
  else if c = byte '\n' then o.putAll (ascii "\\n")
  else if c = byte '\r' then o.putAll (ascii "\\r")
  else if c = byte '\t' then o.putAll (ascii "\\t")
  else if c < 0x20 then o.snprintf 7 unicodeFormat [.word (BitVec.ofNat 64 c.toNat)]
  else o.put c

/-- The loop over the characters of the string. -/
def escapeLoop : List UInt8 → Output → Except Fault Output
  | [], o => .ok o
  | c :: s, o => do
    let o ← escapeChar c o
    escapeLoop s o

/-- `appendJSONEscapedString`: what it appends. -/
def appendJSONEscapedString (s : List UInt8) : Except Fault (List UInt8) := do
  let utf8 := (CString.ofBytes s).bytes
  let o ← Output.put ⟨[], utf8.length * 6 + 3⟩ (byte '"')
  let o ← escapeLoop utf8 o
  let o ← o.put (byte '"')
  let o ← o.put 0
  .ok (CString.ofBytes o.stored).bytes

/-- The format of an integer. -/
def longFormat : CString := CString.ofBytes (ascii "%ld")

/-- The loop over the keys of a dictionary, given what is written for their values: the members,
between which commas go. -/
def writeJSONMembers (texts : List (List UInt8 × List UInt8)) :
    List (List UInt8) → Except Fault (List (List UInt8))
  | [] => .ok []
  | key :: keys => do
    let name ← appendJSONEscapedString key
    let members ← writeJSONMembers texts keys
    .ok ((name ++ (byte ':' :: textForKey texts key)) :: members)

mutual
/-- `writeJSONValue`: what it appends. -/
def writeJSONValue (lib : Library δ) : CFObject δ → Except Fault (List UInt8)
  | .null => .ok (ascii "null")
  | .boolean b => .ok (ascii (if b then "true" else "false"))
  | .real d => .ok (lib.formatDouble d).bytes
  | .integer v => cfStringCreateWithFormatAndArguments longFormat [.word v]
  | .string s => appendJSONEscapedString s
  | .dictionary d => do
    let texts ← writeJSONEach lib d
    let members ← writeJSONMembers texts (keys d)
    .ok (byte '{' :: (List.intercalate (ascii ",") members ++ ascii "\x7d"))
  | .array a => do
    let texts ← writeJSONValues lib a
    .ok (byte '[' :: (List.intercalate (ascii ",") texts ++ ascii "]"))
  | .data _ => .ok []
  | .date _ => .ok []

/-- The loop over the values of an array, between which commas go. -/
def writeJSONValues (lib : Library δ) : List (CFObject δ) → Except Fault (List (List UInt8))
  | [] => .ok []
  | x :: xs => do
    let text ← writeJSONValue lib x
    let texts ← writeJSONValues lib xs
    .ok (text :: texts)

/-- What is written for the values of a dictionary, with their keys. -/
def writeJSONEach (lib : Library δ) :
    Entries δ → Except Fault (List (List UInt8 × List UInt8))
  | [] => .ok []
  | (k, v) :: es => do
    let text ← writeJSONValue lib v
    let texts ← writeJSONEach lib es
    .ok ((k, text) :: texts)
end

/-- `+isValidJSONObject:`. -/
def isValidJSONObject : CFObject δ → Bool
  | .dictionary _ => true
  | .array _ => true
  | _ => false

/-- `+dataWithJSONObject:options:error:`; `none` is `nil`. -/
def dataWithJSONObject (lib : Library δ) (obj : CFObject δ) :
    Except Fault (Option (List UInt8)) :=
  if !isValidJSONObject obj then .ok none
  else do
    let out ← writeJSONValue lib obj
    let data ← dataUsingEncoding out
    .ok (some data)

end Asteros.Foundation.Json
