import Asteros.Libc.FormatBound
import Asteros.Libc.Stdlib

set_option autoImplicit false

/-!
# Scanning by a format

`sscanf` of `scanf.c`. The conversions are the integers, real numbers, characters, strings and `%%`,
with a width, and `*` for what is not stored; every other character of the format is compared. What
the function returns is how much it has stored.

## Main definitions

* `doVsscanf`, `sscanf` — what is stored, one after another.
* `paddedDigits` — the digits of a number, with zeros in front.

## Main results

* `scanConversion_digits` — `%d` reads the digits in front of something else.
* `signedText_padded` — what `%0wd` puts out.
-/

namespace Asteros.Libc

variable {δ : Type}

/-! ## The scanner -/

/-- What is stored through one of the pointers. -/
inductive Stored (δ : Type) where
  /-- Through an `int *`. -/
  | int (v : BitVec 32)
  /-- Through a `double *`. -/
  | double (v : δ)
  /-- Through a `float *`, for the value before it is rounded to a `float`. -/
  | float (v : δ)
  /-- One character. -/
  | char (c : UInt8)
  /-- The characters of a string, which a NUL follows. -/
  | string (s : List UInt8)

/-- What stands between `%` and the conversion character. -/
structure ScanDirective where
  width : ℤ
  suppress : Bool
  islong : Bool

/-- The length modifiers, of which `l` only matters. -/
def scanModifiers : List UInt8 → Bool → Bool × List UInt8
  | b :: p, islong =>
    if b = byte 'l' then scanModifiers p true
    else if b = byte 'h' then scanModifiers p islong
    else (islong, b :: p)
  | [], islong => (islong, [])

/-- The width, `*`, and the length modifiers. -/
def scanDirective (p : List UInt8) : ScanDirective × List UInt8 :=
  let (width, p) := widthDigits p 0
  let suppress := p.head? == some (byte '*')
  let (islong, p) := scanModifiers (if suppress then p.tail else p) false
  (⟨width, suppress, islong⟩, p)

/-- What is stored if it is. -/
def ScanDirective.store (d : ScanDirective) (x : Stored δ) : Option (Stored δ) :=
  if d.suppress then none else some x

/-- The text that an integer is read from: with a width what is copied to `tmp`. -/
def ScanDirective.field (d : ScanDirective) (s : List UInt8) : List UInt8 :=
  if d.width = 0 then s else s.take (min d.width.toNat 31)

/-- The switch on the conversion character: what is stored, and what is left of the text. `strtod`
gives the value, and what is left. -/
def scanConversion (strtod : List UInt8 → δ × List UInt8) (d : ScanDirective) (conv : UInt8)
    (s : List UInt8) : Option (Option (Stored δ) × List UInt8) :=
  if conv = byte 'd' ∨ conv = byte 'i' ∨ conv = byte 'u' then
    let s := s.dropWhile isspace
    let src := d.field s
    let (v, rest) := strtol (.ofBytes src) (if conv = byte 'i' then 0 else 10)
    if rest.length = src.length then none
    else some (d.store (.int (v.truncate 32)), s.drop (src.length - rest.length))
  else if conv = byte 'x' then
    let s := s.dropWhile isspace
    let (v, rest) := strtol (.ofBytes s) 16
    if rest.length = s.length then none else some (d.store (.int (v.truncate 32)), rest)
  else if conv = byte 'f' ∨ conv = byte 'g' ∨ conv = byte 'e' then
    let s := s.dropWhile isspace
    let (v, rest) := strtod s
    if rest.length = s.length then none
    else some (d.store (if d.islong then .double v else .float v), rest)
  else if conv = byte 'c' then
    s.head?.map fun c => (d.store (.char c), s.tail)
  else if conv = byte 's' then
    let s := s.dropWhile isspace
    let run := s.takeWhile fun c => !isspace c
    let n := if d.width = 0 then run.length else min run.length d.width.toNat
    if n = 0 then none else some (d.store (.string (s.take n)), s.drop n)
  else if conv = byte '%' then
    if s.head? = some (byte '%') then some (none, s.tail) else none
  else none

/-- The loop over the format, which every round shortens. -/
def doVsscanf (strtod : List UInt8 → δ × List UInt8) :
    ℕ → List UInt8 → List UInt8 → List (Stored δ)
  | 0, _, _ => []
  | _ + 1, [], _ => []
  | fuel + 1, b :: p, s =>
    if isspace b then doVsscanf strtod fuel p (s.dropWhile isspace)
    else if b ≠ byte '%' then
      if s.head? = some b then doVsscanf strtod fuel p s.tail else []
    else
      let (d, p) := scanDirective p
      match p with
      | [] => []
      | conv :: p =>
        match scanConversion strtod d conv s with
        | none => []
        | some (stored, s) => stored.toList ++ doVsscanf strtod fuel p s

/-- `sscanf`: what is stored through the pointers, in order; as much is returned. -/
def sscanf (strtod : List UInt8 → δ × List UInt8) (s fmt : CString) : List (Stored δ) :=
  doVsscanf strtod (fmt.strlen + 1) fmt.bytes s.bytes

/-! ## Digits in front of something else -/

/-- The text does not go on with a decimal digit. -/
def EndsDigits (rest : List UInt8) : Prop := ∀ b ∈ rest.head?, ∀ d ∈ strtolDigit b, 10 ≤ d

/-- The loop over the digits stops behind them. -/
lemma strtolLoop_digits_append {ds : List ℕ} (hds : ∀ d ∈ ds, d < 10) {rest : List UInt8}
    (hrest : EndsDigits rest) (val : ℕ) :
    strtolLoop 10 (ds.map digitChar ++ rest) (BitVec.ofNat 64 val) =
      (BitVec.ofNat 64 (ds.foldl (fun a d => a * 10 + d) val), rest) := by
  induction ds generalizing val with
  | nil =>
    cases rest with
    | nil => rfl
    | cons b rest =>
      rw [List.map_nil, List.nil_append, strtolLoop, List.foldl_nil]
      cases hb : strtolDigit b with
      | none => rfl
      | some d =>
        have hle := hrest b rfl d hb
        simp only [if_neg (Nat.not_lt.mpr hle)]
  | cons d ds ih =>
    have hd : d < 10 := hds d List.mem_cons_self
    have hstep : BitVec.ofNat 64 val * BitVec.ofNat 64 10 + BitVec.ofNat 64 d =
        BitVec.ofNat 64 (val * 10 + d) := by
      rw [BitVec.ofNat_add, BitVec.ofNat_mul]
    simp only [List.map_cons, List.cons_append, strtolLoop, strtolDigit_digitChar hd, hd, if_true,
      hstep, List.foldl_cons]
    exact ih (fun e he => hds e (List.mem_cons_of_mem _ he)) _

/-- The digits in front of something else are read by `strtol`. -/
lemma strtol_digits {ds : List ℕ} (hne : ds ≠ []) (hds : ∀ d ∈ ds, d < 10) {rest : List UInt8}
    (hrest : EndsDigits rest) {s : CString} (hs : s.bytes = ds.map digitChar ++ rest) :
    strtol s 10 = (BitVec.ofNat 64 (ds.foldl (fun a d => a * 10 + d) 0), rest) := by
  obtain ⟨d, ds, rfl⟩ := List.exists_cons_of_ne_nil hne
  obtain ⟨hsp, hplus, hminus⟩ := digitChar_ne (hds d List.mem_cons_self)
  have hdrop : s.bytes.dropWhile isspace = s.bytes := by
    rw [hs, List.map_cons, List.cons_append, List.dropWhile_cons_of_neg (by simp [hsp])]
  have hsign : strtolSign s.bytes = (false, s.bytes) := by
    rw [hs, List.map_cons, List.cons_append, strtolSign, if_neg (by simp [hplus, hminus])]
  have hloop := strtolLoop_digits_append hds hrest 0
  rw [← hs] at hloop
  have hlen : rest.length ≠ s.bytes.length := by
    rw [hs, List.length_append, List.length_map, List.length_cons]
    omega
  have hzero : (0 : BitVec 64) = BitVec.ofNat 64 0 := rfl
  simp only [strtol, hdrop, hsign, strtolBase_ten, hzero, hloop, if_neg hlen, Bool.false_eq_true,
    if_false]

/-- **`%d` reads the digits in front of something else.** -/
lemma scanConversion_digits (strtod : List UInt8 → δ × List UInt8) {ds : List ℕ} (hne : ds ≠ [])
    (hds : ∀ d ∈ ds, d < 10) {rest : List UInt8} (hrest : EndsDigits rest) (hnul : 0 ∉ rest) :
    scanConversion strtod ⟨0, false, false⟩ (byte 'd') (ds.map digitChar ++ rest) =
      some (some (.int (BitVec.ofNat 32 (ds.foldl (fun a d => a * 10 + d) 0))), rest) := by
  have hfree : 0 ∉ ds.map digitChar ++ rest := by
    rw [List.mem_append, not_or]
    refine ⟨fun h => ?_, hnul⟩
    obtain ⟨d, hd, hzero⟩ := List.mem_map.mp h
    have hval := toNat_digitChar (hds d hd)
    rw [hzero] at hval
    have hz : (0 : UInt8).toNat = 0 := rfl
    omega
  have hstrtol := strtol_digits hne hds hrest (CString.bytes_ofBytes_of_nulFree hfree)
  have hdrop : (ds.map digitChar ++ rest).dropWhile isspace = ds.map digitChar ++ rest := by
    obtain ⟨d, ds, rfl⟩ := List.exists_cons_of_ne_nil hne
    obtain ⟨hsp, -⟩ := digitChar_ne (hds d List.mem_cons_self)
    rw [List.map_cons, List.cons_append, List.dropWhile_cons_of_neg (by simp [hsp])]
  have hpos : 0 < ds.length := List.length_pos_iff.mpr hne
  have hlen : rest.length ≠ (ds.map digitChar ++ rest).length := by
    rw [List.length_append, List.length_map]
    omega
  have hconsumed : (ds.map digitChar ++ rest).length - rest.length = (ds.map digitChar).length := by
    rw [List.length_append]
    omega
  have hbase : (if byte 'd' = byte 'i' then 0 else 10) = 10 := by decide
  unfold scanConversion
  rw [if_pos (Or.inl rfl)]
  simp only [hdrop, ScanDirective.field, if_true, hbase, hstrtol, if_neg hlen, hconsumed,
    List.drop_left, ScanDirective.store, Bool.false_eq_true, if_false, BitVec.truncate_eq_setWidth,
    BitVec.setWidth_ofNat_of_le (show 32 ≤ 64 by decide)]

/-- A digit conversion, and the format behind it. -/
lemma doVsscanf_digits (strtod : List UInt8 → δ × List UInt8) {ds : List ℕ} (hne : ds ≠ [])
    (hds : ∀ d ∈ ds, d < 10) {rest : List UInt8} (hrest : EndsDigits rest) (hnul : 0 ∉ rest)
    (fuel : ℕ) (p : List UInt8) :
    doVsscanf strtod (fuel + 1) (byte '%' :: byte 'd' :: p) (ds.map digitChar ++ rest) =
      .int (BitVec.ofNat 32 (ds.foldl (fun a d => a * 10 + d) 0)) ::
        doVsscanf strtod fuel p rest := by
  have hdirective : scanDirective (byte 'd' :: p) = (⟨0, false, false⟩, byte 'd' :: p) := rfl
  rw [doVsscanf, if_neg (by decide), if_neg (by simp)]
  simp only [hdirective, scanConversion_digits strtod hne hds hrest hnul]
  rfl

/-- A character of the format that is no conversion. -/
lemma doVsscanf_literal (strtod : List UInt8 → δ × List UInt8) {b : UInt8}
    (hspace : isspace b = false) (hb : b ≠ byte '%') (fuel : ℕ) (p rest : List UInt8) :
    doVsscanf strtod (fuel + 1) (b :: p) (b :: rest) = doVsscanf strtod fuel p rest := by
  rw [doVsscanf, if_neg (by simp [hspace]), if_pos hb, if_pos List.head?_cons, List.tail_cons]

/-! ## Digits with zeros in front -/

/-- The digits of a number, with zeros in front up to the width. -/
def paddedDigits (width n : ℕ) : List ℕ :=
  let ds := if n = 0 then [0] else (Nat.digits 10 n).reverse
  List.replicate (width - ds.length) 0 ++ ds

variable {width n : ℕ}

/-- There is a digit. -/
lemma paddedDigits_ne_nil (width n : ℕ) : paddedDigits width n ≠ [] := by
  unfold paddedDigits
  split_ifs with h
  · simp
  · simp [Nat.digits_eq_nil_iff_eq_zero, h]

/-- They are digits. -/
lemma paddedDigits_lt (width n : ℕ) : ∀ d ∈ paddedDigits width n, d < 10 := by
  intro d hd
  rcases List.mem_append.mp hd with hd | hd
  · rw [List.eq_of_mem_replicate hd]
    decide
  · split_ifs at hd with h
    · rw [List.mem_singleton.mp hd]
      decide
    · exact Nat.digits_lt_base (by decide) (List.mem_reverse.mp hd)

/-- They are those of the number. -/
lemma foldl_paddedDigits (width n : ℕ) :
    (paddedDigits width n).foldl (fun a d => a * 10 + d) 0 = n := by
  have hzeros : ∀ k, (List.replicate k 0).foldl (fun a d => a * 10 + d) 0 = 0 := by
    intro k
    induction k with
    | zero => rfl
    | succ k ih => exact ih
  unfold paddedDigits
  rw [List.foldl_append, hzeros]
  split_ifs with h
  · exact h.symm
  · exact foldl_digits n

/-- A number with no more digits fills the width. -/
lemma length_paddedDigits (hwidth : 0 < width) (hn : n < 10 ^ width) :
    (paddedDigits width n).length = width := by
  have hlen : (if n = 0 then [0] else (Nat.digits 10 n).reverse).length ≤ width := by
    split_ifs with h
    · exact hwidth
    · rw [List.length_reverse]
      exact (Nat.digits_length_le_iff (by decide) n).mpr hn
  unfold paddedDigits
  rw [List.length_append, List.length_replicate]
  omega

/-- **What `%0wd` puts out** for a number that is not negative. -/
lemma signedText_padded (width : ℕ) {n : ℕ} (hn : n < 2 ^ 63) :
    signedText ⟨true, false, width, 0⟩ (BitVec.ofNat 64 n) =
      (paddedDigits width n).map digitChar := by
  have hnat : (BitVec.ofNat 64 n).toNat = n := by
    rw [BitVec.toNat_ofNat]
    omega
  have hslt : (BitVec.ofNat 64 n).slt 0 = false := by
    rw [BitVec.slt_eq_decide, BitVec.toInt_eq_toNat_of_lt (by omega), hnat]
    simp
  have hdecimal : decimal (BitVec.ofNat 64 n) =
      (if n = 0 then [0] else (Nat.digits 10 n).reverse).map digitChar := by
    rw [decimal, hslt, if_neg Bool.false_ne_true, hnat, numbuf]
    split_ifs
    · rfl
    · rw [List.map_reverse]
  have hwidth : ∀ len : ℕ, ((width : ℤ) - len).toNat = width - len := fun len => by omega
  rw [signedText, hdecimal, Directive.padding, paddedDigits, List.map_append, List.map_replicate,
    List.length_map, hwidth]
  rfl

end Asteros.Libc
