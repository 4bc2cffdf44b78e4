import Asteros.Dyld.Image
import Asteros.Lib.Trie

set_option autoImplicit false

/-!
# Looking up an exported symbol

The lookup of `export_trie.c` walks a trie of bytes: a node is the size of its terminal
information, that information, the number of children and for each child a label and the offset of
its node. What the trie says is a trie with labels, of which the bytes are one of many images; the
lookup finds what that trie has for the symbol.

## Main definitions

* `childLoop`, `walk` — the two loops.
* `imageResolveExport` — the lookup.
* `Encodes` — the bytes from an offset on are those of a trie.

## Main results

* `imageResolveExport_exact` — the lookup is exact.
-/

namespace Asteros.Dyld

open Asteros.Libc

/-! ## The lookup -/

/-- The loop over `left` children of a node: the next node, or null, and what is left of the
symbol. -/
def childLoop (v : View) (exports : Stream) :
    ℕ → ℕ → List UInt8 → Except Stop (ℕ × List UInt8)
  | 0, _, s => .ok (0, s)
  | left + 1, p, s => do
    let label ← cString v p
    let (childOff, q) ← readUleb128 v (sizeAdd p (label.length + 1)) exports.fend
    if label.isPrefixOf s then .ok (sizeAdd exports.start childOff, s.drop label.length)
    else childLoop v exports left q s

/-- `EXPORT_SYMBOL_FLAGS_REEXPORT | EXPORT_SYMBOL_FLAGS_STUB_AND_RESOLVER`. -/
def unsupportedFlags : ℕ := 0x08 ||| 0x10

/-- The part of the loop of `image_resolve_export` after the symbol is used up. -/
def terminalAddr (v : View) (im : Image) (terminalSize p : ℕ) : Except Stop ℕ :=
  if terminalSize = 0 then .ok 0
  else do
    let (flags, p) ← readUleb128 v p im.exports.fend
    if flags &&& unsupportedFlags ≠ 0 then .ok 0
    else
      let (offset, _) ← readUleb128 v p im.exports.fend
      .ok (sizeAdd im.mh offset)

/-- The loop of `image_resolve_export`, at the node `p` with `s` left of the symbol. -/
def walk (v : View) (im : Image) : ℕ → ℕ → List UInt8 → Except Stop ℕ
  | 0, _, _ => .error .endless
  | fuel + 1, p, s => do
    let (terminalSize, p) ← readUleb128 v p im.exports.fend
    let children := sizeAdd p terminalSize
    if s = [] then terminalAddr v im terminalSize p
    else
      let childCount ← v children
      let (next, s) ← childLoop v im.exports childCount.toNat (sizeAdd children 1) s
      if next = 0 then .ok 0 else walk v im fuel next s

/-- `image_resolve_export`, with `fuel` rounds of its loop. A null symbol is read through after the
first number. -/
def imageResolveExport (v : View) (fuel : ℕ) (im : Image) (symbol : Option CString) :
    Except Stop ℕ :=
  if im.exports.start = 0 then .ok 0
  else
    match symbol with
    | some symbol => walk v im fuel im.exports.start symbol.bytes
    | none => do
      let _ ← readUleb128 v im.exports.start im.exports.fend
      .error .outside

/-! ## What the bytes say -/

/-- What a trie has for a symbol. -/
structure Export where
  flags : ℕ
  offset : ℕ
  deriving DecidableEq

/-- The terminal information of a node: its flags and, if they are ones the lookup supports, the
offset, with anything behind. -/
def EncodesTerminal (payload : List UInt8) : Option Export → Prop
  | none => payload = []
  | some e => ∃ flags rest, payload = flags ++ rest ∧ Leb128.Terminated flags ∧
      Leb128.value flags = e.flags ∧ e.flags < 2 ^ 64 ∧
      (e.flags &&& unsupportedFlags = 0 → ∃ offset more, rest = offset ++ more ∧
        Leb128.Terminated offset ∧ Leb128.value offset = e.offset ∧ e.offset < 2 ^ 64)

/-- A number of the trie. -/
structure Uleb where
  bytes : List UInt8
  terminated : Leb128.Terminated bytes
  fits : Leb128.value bytes < 2 ^ 64

/-- The labels of some children with the offsets of their nodes. -/
def childBytes : List (List UInt8 × Uleb) → List UInt8
  | [] => []
  | (label, off) :: slots => label ++ (0 :: (off.bytes ++ childBytes slots))

mutual
/-- **The bytes of the region from an offset on are those of the trie**, wherever the nodes of the
children are. -/
def Encodes (R : Region) (off : ℕ) : LabelTrie UInt8 Export → Prop
  | .node value children => ∃ (size : Uleb) (payload : List UInt8) (slots : List (List UInt8 × Uleb)),
      Leb128.value size.bytes = payload.length ∧ EncodesTerminal payload value ∧
      children.length < 256 ∧
      R.Has off (size.bytes ++ (payload ++ (UInt8.ofNat children.length :: childBytes slots))) ∧
      EncodesChildren R slots children

/-- The children have their labels and, at the offsets, their nodes. -/
def EncodesChildren (R : Region) :
    List (List UInt8 × Uleb) → List (List UInt8 × LabelTrie UInt8 Export) → Prop
  | [], [] => True
  | (label, off) :: slots, (label', t) :: children =>
    label = label' ∧ 0 ∉ label ∧ Encodes R (Leb128.value off.bytes) t ∧
      EncodesChildren R slots children
  | _, _ => False
end

/-- What the lookup answers for a symbol: its address if the trie has it without a re-export or a
resolver. -/
def exportedAddr (im : Image) : Option Export → ℕ
  | none => 0
  | some e => if e.flags &&& unsupportedFlags = 0 then sizeAdd im.mh e.offset else 0

/-! ## The lookup in the bytes of a trie -/

section Exact

variable {R : Region} {im : Image}

/-- An address in the region is none that wraps. -/
lemma sizeAdd_of_le_fend {a n : ℕ} (h : a + n ≤ R.fend) : sizeAdd a n = a + n :=
  sizeAdd_of_lt (lt_of_le_of_lt h R.fits)

/-- The children are looked through up to the first whose label is a prefix of what is left. -/
lemma childLoop_encodes (hexports : im.exports = ⟨R.start, R.fend⟩) {s : List UInt8}
    {children : List (List UInt8 × LabelTrie UInt8 Export)} {slots : List (List UInt8 × Uleb)}
    (h : EncodesChildren R slots children) {off : ℕ} (hoff : R.Has off (childBytes slots)) :
    ∃ next s', childLoop R.view im.exports children.length (R.start + off) s = .ok (next, s') ∧
      ((next = 0 ∧ LabelTrie.findChild children s = none) ∨
        ∃ c ∈ children, ∃ off', next = sizeAdd R.start off' ∧ Encodes R off' c.2 ∧
          c.1.isPrefixOf s = true ∧ s' = s.drop c.1.length ∧
          LabelTrie.findChild children s = LabelTrie.find c.2 s') := by
  induction children generalizing slots off with
  | nil => exact ⟨0, s, rfl, Or.inl ⟨rfl, rfl⟩⟩
  | cons c children ih =>
    obtain ⟨label', t⟩ := c
    cases slots with
    | nil => exact h.elim
    | cons slot slots =>
      obtain ⟨label, childOff⟩ := slot
      obtain ⟨rfl, hnul, hchild, hrest⟩ := h
      rw [childBytes, List.append_cons] at hoff
      have hlabel := hoff.left
      have hnumber := hoff.right.left
      have hmore := hoff.right.right
      have hlen : (label ++ [0]).length = label.length + 1 := by
        rw [List.length_append, List.length_singleton]
      rw [hlen] at hnumber hmore
      have hwrap : sizeAdd (R.start + off) (label.length + 1) =
          R.start + (off + (label.length + 1)) := by
        have hle := hlabel.le_fend (by simp)
        rw [hlen] at hle
        rw [sizeAdd_of_le_fend hle, Nat.add_assoc]
      have hread := readUleb128_region childOff.terminated childOff.fits hnumber
      have hnext : R.start + (off + (label.length + 1)) + childOff.bytes.length =
          R.start + (off + (label.length + 1) + childOff.bytes.length) := by
        omega
      have hstep : childLoop R.view im.exports (children.length + 1) (R.start + off) s =
          if label.isPrefixOf s then
            .ok (sizeAdd R.start (Leb128.value childOff.bytes), s.drop label.length)
          else childLoop R.view im.exports children.length
            (R.start + (off + (label.length + 1) + childOff.bytes.length)) s := by
        rw [childLoop, cString_region hnul hlabel]
        simp only [Except.bind, bind]
        rw [hwrap, hexports, hread, hnext]
      rw [List.length_cons, hstep]
      by_cases hprefix : label.isPrefixOf s = true
      · rw [if_pos hprefix]
        refine ⟨_, _, rfl, Or.inr ⟨(label, t), List.mem_cons_self, _, rfl, hchild, hprefix, rfl, ?_⟩⟩
        rw [LabelTrie.findChild, if_pos hprefix]
      · rw [if_neg hprefix]
        obtain ⟨next, s', hloop, hcases⟩ := ih hrest hmore
        refine ⟨next, s', hloop, ?_⟩
        have hfind : LabelTrie.findChild ((label, t) :: children) s =
            LabelTrie.findChild children s := by
          rw [LabelTrie.findChild, if_neg hprefix]
        rw [hfind]
        refine hcases.imp_right ?_
        rintro ⟨c, hc, hmatch⟩
        exact ⟨c, List.mem_cons_of_mem _ hc, hmatch⟩

/-- At the end of the symbol the terminal information is read. -/
lemma terminalAddr_encodes (hexports : im.exports = ⟨R.start, R.fend⟩) {payload : List UInt8}
    {value : Option Export} (h : EncodesTerminal payload value) {off : ℕ}
    (hoff : R.Has off payload) :
    terminalAddr R.view im payload.length (R.start + off) = .ok (exportedAddr im value) := by
  cases value with
  | none =>
    obtain rfl : payload = [] := h
    rfl
  | some e =>
    obtain ⟨flags, rest, rfl, hterm, hflags, hfits, hoffset⟩ := h
    have hne : (flags ++ rest).length ≠ 0 := by
      simp [hterm.ne_nil]
    rw [terminalAddr, if_neg hne, hexports,
      readUleb128_region hterm (by rw [hflags]; exact hfits) hoff.left, hflags]
    simp only [Except.bind, bind]
    by_cases hsupported : e.flags &&& unsupportedFlags = 0
    · obtain ⟨offset, more, rfl, hterm', hvalue, hfits'⟩ := hoffset hsupported
      rw [Nat.add_assoc, readUleb128_region hterm' (by rw [hvalue]; exact hfits') hoff.right.left,
        hvalue]
      simp only [exportedAddr, hsupported, ne_eq, not_true_eq_false, if_false, if_true]
    · simp only [exportedAddr, hsupported, ne_eq, not_false_eq_true, if_true, if_false]

/-- **The walk finds what the trie has.**

**Proof sketch.** Induction over the trie: each round of the loop reads one node, at the end of the
symbol its terminal information, before it the children up to the one whose label is a prefix. -/
lemma walk_encodes (hexports : im.exports = ⟨R.start, R.fend⟩) (hstart : R.start ≠ 0)
    {t : LabelTrie UInt8 Export} (ht : t.WellFormed) {off : ℕ} (hoff : Encodes R off t)
    {s : List UInt8} {fuel : ℕ} (hfuel : s.length < fuel) :
    walk R.view im fuel (R.start + off) s = .ok (exportedAddr im (t.find s)) := by
  induction t using LabelTrie.trieInduction generalizing off s fuel with
  | node value children ih =>
    obtain ⟨hne, -, hchildren⟩ := ht
    rw [LabelTrie.childrenWellFormed_iff] at hchildren
    obtain ⟨size, payload, slots, hsize, hpayload, hcount, hbytes, hslots⟩ := hoff
    obtain ⟨fuel, rfl⟩ : ∃ k, fuel = k + 1 := ⟨fuel - 1, by omega⟩
    have hterm := hbytes.right.left
    have hlist := hbytes.right.right
    have hend : R.start + (off + size.bytes.length) + payload.length < R.fend := by
      have hlt := hlist.cons.2.2
      omega
    have hwrap : sizeAdd (R.start + (off + size.bytes.length)) payload.length =
        R.start + (off + size.bytes.length + payload.length) := by
      rw [sizeAdd_of_le_fend hend.le, Nat.add_assoc]
    rw [walk, hexports, readUleb128_region size.terminated size.fits hbytes.left, hsize,
      Nat.add_assoc]
    simp only [Except.bind, bind]
    rw [hwrap, LabelTrie.find]
    by_cases hs : s = []
    · rw [if_pos hs, if_pos hs, terminalAddr_encodes hexports hpayload hterm]
    · have hone : sizeAdd (R.start + (off + size.bytes.length + payload.length)) 1 =
          R.start + (off + size.bytes.length + payload.length + 1) :=
        sizeAdd_of_le_fend (show _ ≤ R.fend by omega)
      have hcountNat : (UInt8.ofNat children.length).toNat = children.length := by
        rw [UInt8.toNat_ofNat']
        exact Nat.mod_eq_of_lt hcount
      obtain ⟨next, s', hloop, hcases⟩ := childLoop_encodes (s := s) hexports hslots hlist.cons.2.1
      rw [hexports] at hloop
      rw [if_neg hs, if_neg hs, hlist.cons.1]
      simp only [hcountNat, hone, hloop]
      rcases hcases with ⟨rfl, hnone⟩ | ⟨c, hc, off', rfl, henc, hprefix, rfl, hfind⟩
      · rw [if_pos rfl, hnone]
        rfl
      · have hin : R.start + off' < R.fend := by
          cases hct : c.2 with
          | node value' children' =>
            rw [hct] at henc
            obtain ⟨size', payload', slots', -, -, -, hbytes', -⟩ := henc
            have hle := hbytes'.le_fend (by simp)
            rw [List.length_append, List.length_append, List.length_cons] at hle
            omega
        have hlabel : 0 < c.1.length := List.length_pos_of_ne_nil (hne c hc)
        have hshort : (s.drop c.1.length).length < fuel := by
          have hle := (List.isPrefixOf_iff_prefix.mp hprefix).length_le
          rw [List.length_drop]
          omega
        have hnext : R.start + off' ≠ 0 := by omega
        rw [sizeAdd_of_le_fend hin.le, if_neg hnext, ih c hc (hchildren c hc) henc hshort, hfind]

/-- **The lookup is exact**: in every encoding of a finite map of symbols it finds the address of
what the map has for the symbol without a re-export or a resolver, and nothing else. -/
theorem imageResolveExport_exact {m : List UInt8 → Option Export} {t : LabelTrie UInt8 Export}
    (ht : t.WellFormed) (hm : ∀ name e, m name = some e ↔ (name, e) ∈ t.entries) {R : Region}
    {im : Image} (hexports : im.exports = ⟨R.start, R.fend⟩) (hstart : R.start ≠ 0)
    (henc : Encodes R 0 t) (symbol : CString) {fuel : ℕ} (hfuel : symbol.strlen < fuel) :
    imageResolveExport R.view fuel im (some symbol) = .ok (exportedAddr im (m symbol.bytes)) := by
  have hfind : t.find symbol.bytes = m symbol.bytes := by
    apply Option.ext
    intro e
    exact (LabelTrie.find_eq_some_iff ht).trans (hm _ _).symm
  have hwalk := walk_encodes hexports hstart ht henc hfuel
  rw [Nat.add_zero] at hwalk
  rw [imageResolveExport, hexports, if_neg hstart]
  simp only
  rw [hwalk, hfind]

/-- A trie for `_a` and `_ab`, at the address 4096. -/
def twoSymbols : LabelTrie UInt8 Export :=
  .node none [([95, 97], .node (some ⟨0, 16⟩) [([98], .node (some ⟨0, 32⟩) [])])]

/-- Its bytes, node after node. -/
def twoSymbolsRegion : Region where
  start := 4096
  bytes := [0, 1, 95, 97, 0, 6, 2, 0, 16, 1, 98, 0, 13, 2, 0, 32, 0]
  fits := by decide

/-- The image that has them. -/
def twoSymbolsImage : Image :=
  ⟨[], 8192, 0, [], .null, .null, .null, .null, ⟨4096, 4113⟩, []⟩

/-- The bytes are those of the trie. -/
lemma encodes_twoSymbols : Encodes twoSymbolsRegion 0 twoSymbols := by
  refine ⟨⟨[0], rfl, by decide⟩, [], [([95, 97], ⟨[6], rfl, by decide⟩)], rfl, rfl, by decide,
    ⟨_, rfl⟩, rfl, by decide, ?_, trivial⟩
  refine ⟨⟨[2], rfl, by decide⟩, [0, 16], [([98], ⟨[13], rfl, by decide⟩)], rfl, ?_, by decide,
    ⟨_, rfl⟩, rfl, by decide, ?_, trivial⟩
  · exact ⟨[0], [16], rfl, rfl, rfl, by decide, fun _ => ⟨[16], [], rfl, rfl, rfl, by decide⟩⟩
  refine ⟨⟨[2], rfl, by decide⟩, [0, 32], [], rfl, ?_, by decide, ⟨_, rfl⟩, trivial⟩
  exact ⟨[0], [32], rfl, rfl, rfl, by decide, fun _ => ⟨[32], [], rfl, rfl, rfl, by decide⟩⟩

/-- The longer of the two symbols is found. -/
theorem imageResolveExport_exact_longer :
    imageResolveExport twoSymbolsRegion.view 4 twoSymbolsImage
      (some (CString.ofBytes [95, 97, 98])) = .ok 8224 :=
  have hwf : twoSymbols.WellFormed := by
    simp [twoSymbols, LabelTrie.WellFormed, LabelTrie.ChildrenWellFormed]
  imageResolveExport_exact hwf
    (m := fun name => twoSymbols.find name)
    (fun _ _ => LabelTrie.find_eq_some_iff hwf)
    (show twoSymbolsImage.exports = ⟨twoSymbolsRegion.start, twoSymbolsRegion.fend⟩ from rfl)
    (by decide) encodes_twoSymbols (CString.ofBytes [95, 97, 98]) (by decide)

end Exact

end Asteros.Dyld
