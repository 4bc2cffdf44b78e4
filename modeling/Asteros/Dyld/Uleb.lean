import Asteros.Lib.Leb128
import Asteros.Libc.CTypes

set_option autoImplicit false

/-!
# Reading bytes and numbers

The readers of `uleb.h`. They look for the end of what they read before every byte and panic there.
A read of memory is a function that gives the byte at an address or says why there is none, so that
the memory a reader may use can be chosen: all of it, or one range.

## Main definitions

* `Stop` — why a run does not return.
* `Region` — a range of memory with its bytes, and what can be read of it.
* `readUleb128`, `readSleb128` — the readers.
* `cString` — `strlen` of a label or a name, with the characters it passes.

## Main results

* `readUleb128_region` — what the reader makes of an encoding inside a region.
-/

namespace Asteros.Dyld

open Asteros.Libc

/-- Why a run does not return. -/
inductive Stop where
  /-- `dyld_panic`. -/
  | panic
  /-- An access to memory that may not be accessed. -/
  | outside
  /-- No end. -/
  | endless
  deriving DecidableEq

/-- The byte at an address. -/
abbrev View := ℕ → Except Stop UInt8

/-- A range of memory with its bytes, below the end of the address space. -/
structure Region where
  start : ℕ
  bytes : List UInt8
  fits : start + bytes.length < 2 ^ 64

namespace Region

/-- The address behind the range. -/
def fend (R : Region) : ℕ := R.start + R.bytes.length

/-- Only the bytes of the range can be read. -/
def view (R : Region) : View := fun a =>
  if R.start ≤ a then
    match R.bytes[a - R.start]? with
    | some b => .ok b
    | none => .error .outside
  else .error .outside

/-- The bytes are found at an offset. -/
def Has (R : Region) (off : ℕ) (bs : List UInt8) : Prop := bs <+: R.bytes.drop off

end Region

/-! ## Numbers -/

/-- The loop of `read_uleb128`, `left` bytes before the end. -/
def readUlebLoop (v : View) : ℕ → ℕ → ℕ → ℕ → Except Stop (ℕ × ℕ)
  | 0, _, _, _ => .error .panic
  | left + 1, p, bit, result => do
    let byte ← v p
    let result := result ||| ((byte &&& 0x7f).toNat <<< (bit % 64)) % 2 ^ 64
    if byte &&& 0x80 ≠ 0 then readUlebLoop v left (p + 1) (bit + 7) result
    else .ok (result, p + 1)

/-- `read_uleb128`: the number and where it ends. The shift takes its count modulo 64. -/
def readUleb128 (v : View) (p fend : ℕ) : Except Stop (ℕ × ℕ) := readUlebLoop v (fend - p) p 0 0

/-- The loop of `read_sleb128`, with the last byte and the next bit. -/
def readSlebLoop (v : View) : ℕ → ℕ → ℕ → ℕ → Except Stop (ℕ × ℕ × ℕ × UInt8)
  | 0, _, _, _ => .error .panic
  | left + 1, p, bit, result => do
    let byte ← v p
    let result := result ||| ((byte &&& 0x7f).toNat <<< (bit % 64)) % 2 ^ 64
    if byte &&& 0x80 ≠ 0 then readSlebLoop v left (p + 1) (bit + 7) result
    else .ok (result, p + 1, bit + 7, byte)

/-- `read_sleb128`, in two's complement. -/
def readSleb128 (v : View) (p fend : ℕ) : Except Stop (ℕ × ℕ) := do
  let (result, p, bit, byte) ← readSlebLoop v (fend - p) p 0 0
  if bit < 64 ∧ byte &&& 0x40 ≠ 0 then .ok (result ||| (2 ^ 64 - 2 ^ bit), p) else .ok (result, p)

/-! ## Strings -/

/-- The characters up to the NUL, `left` bytes before the end of the address space. -/
def cStringLoop (v : View) : ℕ → ℕ → Except Stop (List UInt8)
  | 0, _ => .error .outside
  | left + 1, p => do
    let b ← v p
    if b = 0 then .ok []
    else
      let s ← cStringLoop v left (p + 1)
      .ok (b :: s)

/-- The characters of the C string at an address. -/
def cString (v : View) (p : ℕ) : Except Stop (List UInt8) := cStringLoop v (2 ^ 64 - p) p

/-! ## Reading what is there -/

/-- The bytes are read from an address on. -/
def Reads (v : View) (p : ℕ) (bs : List UInt8) : Prop :=
  ∀ (i : ℕ) (b : UInt8), bs[i]? = some b → v (p + i) = .ok b

/-- The first byte, and those behind it. -/
lemma Reads.cons {v : View} {p : ℕ} {b : UInt8} {bs : List UInt8} (h : Reads v p (b :: bs)) :
    v p = .ok b ∧ Reads v (p + 1) bs := by
  refine ⟨h 0 b rfl, fun i b' hb' => ?_⟩
  rw [Nat.add_assoc, Nat.add_comm 1 i]
  exact h (i + 1) b' hb'

/-- The first of two parts. -/
lemma Reads.left {v : View} {p : ℕ} {s t : List UInt8} (h : Reads v p (s ++ t)) : Reads v p s :=
  fun i b hb => h i b (by
    obtain ⟨hlt, -⟩ := List.getElem?_eq_some_iff.mp hb
    rw [List.getElem?_append_left hlt]
    exact hb)

/-- The second of two parts. -/
lemma Reads.right {v : View} {p : ℕ} {s t : List UInt8} (h : Reads v p (s ++ t)) :
    Reads v (p + s.length) t := fun i b hb => by
  rw [Nat.add_assoc]
  refine h (s.length + i) b ?_
  rw [List.getElem?_append_right (Nat.le_add_right _ _), Nat.add_sub_cancel_left]
  exact hb

/-- The loop of the number reader gathers the groups of an encoding. -/
lemma readUlebLoop_reads {v : View} {bs : List UInt8} (hbs : Leb128.Terminated bs) {p left : ℕ}
    (hp : Reads v p bs) (hleft : bs.length ≤ left) (bit result : ℕ) :
    readUlebLoop v left p bit result = .ok (Leb128.gather 64 bit result bs, p + bs.length) := by
  induction bs generalizing p left bit result with
  | nil => exact hbs.elim
  | cons b bs ih =>
    obtain ⟨left, rfl⟩ : ∃ k, left = k + 1 := ⟨left - 1, by rw [List.length_cons] at hleft; omega⟩
    rw [readUlebLoop, hp.cons.1]
    cases bs with
    | nil =>
      have hlast : ¬(b &&& 0x80 ≠ 0) := not_not.mpr hbs
      simp only [Except.bind, bind, if_neg hlast]
      rfl
    | cons b' bs =>
      have hnext := ih hbs.2 hp.cons.2 (Nat.le_of_succ_le_succ hleft) (bit + 7)
        (result ||| ((b &&& 0x7f).toNat <<< (bit % 64)) % 2 ^ 64)
      simp only [Except.bind, bind, if_pos hbs.1]
      rw [hnext, Leb128.gather]
      simp only [List.length_cons]
      congr 2
      omega

/-- An encoding before the end is read as what its groups gather. -/
lemma readUleb128_reads {v : View} {bs : List UInt8} (hbs : Leb128.Terminated bs) {p fend : ℕ}
    (hp : Reads v p bs) (hfend : p + bs.length ≤ fend) :
    readUleb128 v p fend = .ok (Leb128.gather 64 0 0 bs, p + bs.length) :=
  readUlebLoop_reads hbs hp (by omega) 0 0

/-- A string is read up to its NUL. -/
lemma cString_reads {v : View} {s : List UInt8} (hs : 0 ∉ s) {p : ℕ} (hp : Reads v p (s ++ [0]))
    (hfits : p + s.length < 2 ^ 64) : cString v p = .ok s := by
  have hloop : ∀ (s : List UInt8) (p left : ℕ), 0 ∉ s → Reads v p (s ++ [0]) →
      s.length < left → cStringLoop v left p = .ok s := by
    intro s
    induction s with
    | nil =>
      intro p left _ hp hleft
      obtain ⟨left, rfl⟩ : ∃ k, left = k + 1 := ⟨left - 1, by omega⟩
      rw [cStringLoop, hp.cons.1]
      rfl
    | cons b s ih =>
      intro p left hs hp hleft
      obtain ⟨left, rfl⟩ : ∃ k, left = k + 1 := ⟨left - 1, by omega⟩
      rw [List.mem_cons, not_or] at hs
      rw [List.length_cons] at hleft
      have hnext := ih (p + 1) left hs.2 hp.cons.2 (by omega)
      rw [cStringLoop, hp.cons.1]
      simp only [Except.bind, bind, if_neg (Ne.symm hs.1)]
      rw [hnext]
  exact hloop s p _ hs hp (by omega)

/-! ## Reading inside a region -/

section Regions

variable {R : Region}

/-- Where a byte of a region can be read. -/
lemma Region.view_eq_ok_iff {a : ℕ} : (∃ b, R.view a = .ok b) ↔ R.start ≤ a ∧ a < R.fend := by
  rw [Region.view, Region.fend]
  by_cases hstart : R.start ≤ a
  · rw [if_pos hstart]
    by_cases hlt : a - R.start < R.bytes.length
    · simp only [List.getElem?_eq_getElem hlt]
      exact ⟨fun _ => ⟨hstart, by omega⟩, fun _ => ⟨_, rfl⟩⟩
    · simp only [List.getElem?_eq_none (Nat.le_of_not_lt hlt)]
      constructor
      · rintro ⟨b, hb⟩
        cases hb
      · rintro ⟨-, h⟩
        omega
  · rw [if_neg hstart]
    constructor
    · rintro ⟨b, hb⟩
      cases hb
    · rintro ⟨h, -⟩
      exact absurd h hstart

/-- What is read lies in the region. -/
lemma Reads.le_fend {p : ℕ} {bs : List UInt8} (h : Reads R.view p bs) (hbs : bs ≠ []) :
    R.start ≤ p ∧ p + bs.length ≤ R.fend := by
  obtain ⟨b, bs, rfl⟩ := List.exists_cons_of_ne_nil hbs
  have hfirst := Region.view_eq_ok_iff.mp ⟨b, h.cons.1⟩
  have hlast := h bs.length _ (List.getElem?_eq_getElem (Nat.lt_succ_self _))
  have hend := Region.view_eq_ok_iff.mp ⟨_, hlast⟩
  rw [List.length_cons]
  exact ⟨hfirst.1, hend.2⟩

/-- What is at an offset can be read there, before the end. -/
lemma Region.Has.reads {off : ℕ} {bs : List UInt8} (h : R.Has off bs) :
    Reads R.view (R.start + off) bs := by
  intro i b hb
  obtain ⟨rest, hrest⟩ := h
  have hget : R.bytes[off + i]? = some b := by
    obtain ⟨hlt, -⟩ := List.getElem?_eq_some_iff.mp hb
    rw [← List.getElem?_drop, ← hrest, List.getElem?_append_left hlt]
    exact hb
  rw [Region.view, if_pos (by omega), show R.start + off + i - R.start = off + i by omega, hget]

/-- What is at an offset ends inside the region. -/
lemma Region.Has.le_fend {off : ℕ} {bs : List UInt8} (h : R.Has off bs) (hbs : bs ≠ []) :
    R.start + off + bs.length ≤ R.fend :=
  (h.reads.le_fend hbs).2

/-- The first of the bytes at an offset can be read, and the others are behind it. -/
lemma Region.Has.cons {off : ℕ} {b : UInt8} {bs : List UInt8} (h : R.Has off (b :: bs)) :
    R.view (R.start + off) = .ok b ∧ R.Has (off + 1) bs ∧ R.start + off < R.fend := by
  have hle := h.le_fend (List.cons_ne_nil b bs)
  rw [List.length_cons] at hle
  refine ⟨h.reads.cons.1, ?_, by omega⟩
  obtain ⟨rest, hrest⟩ := h
  refine ⟨rest, ?_⟩
  rw [← List.drop_drop, ← hrest]
  rfl

/-- Bytes behind others. -/
lemma Region.Has.right {off : ℕ} {s t : List UInt8} (h : R.Has off (s ++ t)) :
    R.Has (off + s.length) t := by
  obtain ⟨rest, hrest⟩ := h
  refine ⟨rest, ?_⟩
  rw [← List.drop_drop, ← hrest, List.append_assoc, List.drop_left]

/-- Bytes before others. -/
lemma Region.Has.left {off : ℕ} {s t : List UInt8} (h : R.Has off (s ++ t)) : R.Has off s :=
  (List.prefix_append s t).trans h

/-- **An encoding inside a region is read as its number.** -/
lemma readUleb128_region {bs : List UInt8} (hbs : Leb128.Terminated bs)
    (hvalue : Leb128.value bs < 2 ^ 64) {off : ℕ} (hoff : R.Has off bs) :
    readUleb128 R.view (R.start + off) R.fend =
      .ok (Leb128.value bs, R.start + off + bs.length) := by
  rw [readUleb128_reads hbs hoff.reads (hoff.le_fend hbs.ne_nil),
    Leb128.gather_eq (w := 64) (by decide) (by omega)]
  simp

/-- A string in a region is read up to its NUL. -/
lemma cString_region {s : List UInt8} (hs : 0 ∉ s) {off : ℕ} (hoff : R.Has off (s ++ [0])) :
    cString R.view (R.start + off) = .ok s := by
  have hfits := R.fits
  have hle := hoff.le_fend (by simp)
  rw [Region.fend, List.length_append, List.length_singleton] at hle
  exact cString_reads hs hoff.reads (by omega)

end Regions

end Asteros.Dyld
