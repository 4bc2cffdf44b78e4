import Asteros.Dyld.ExportTrie

set_option autoImplicit false

/-!
# Looking up a symbol in arbitrary bytes

The lookup of an exported symbol trusts three things that it takes from the file: the size of the
terminal information and the offset of a child may lead anywhere, a label need not end, and nothing
keeps the nodes from leading back to each other. The numbers themselves are read with a check. Which
regions it can be used on is said by what their bytes are: a chain of nodes for the symbol.

## Main definitions

* `NumberAt`, `LabelAt`, `CutAt` — what bytes are at an address.
* `Chooses` — the child of a node that a symbol goes to.
* `Chain` — there is a chain of nodes for a symbol.
* `WalkReturns` — the lookup returns or panics, and reads the region only.

## Main results

* `walkReturns_iff` — for which contents and symbols it does.
-/

namespace Asteros.Dyld

open Asteros.Libc

/-! ## What the bytes are -/

section Bytes

variable (R : Region) (p : ℕ)

/-- A number is at the address. -/
def NumberAt (bs : List UInt8) : Prop := Leb128.Terminated bs ∧ Reads R.view p bs

/-- No number is at the address in the region, as it ends before. -/
def CutAt : Prop := R.start ≤ p ∧ ∀ bs, ¬NumberAt R p bs

/-- A label is at the address. -/
def LabelAt (label : List UInt8) : Prop := 0 ∉ label ∧ Reads R.view p (label ++ [0])

end Bytes

/-- What 64 bits hold of a number. -/
def number (bs : List UInt8) : ℕ := Leb128.gather 64 0 0 bs

/-- **The child for a symbol**, of `left` children from the address `p` on: the first one whose label
the symbol begins with, given by the address of its node and what is left of the symbol. There is
none if no label is like that, or the region ends in front of it. -/
inductive Chooses (R : Region) (s : List UInt8) : ℕ → ℕ → Option (ℕ × List UInt8) → Prop where
  | none {p : ℕ} : Chooses R s 0 p none
  | cut {left p : ℕ} {label : List UInt8} : LabelAt R p label →
      CutAt R (p + (label.length + 1)) → Chooses R s (left + 1) p none
  | here {left p : ℕ} {label off : List UInt8} : LabelAt R p label →
      NumberAt R (p + (label.length + 1)) off → label.isPrefixOf s →
      Chooses R s (left + 1) p (some (sizeAdd R.start (number off), s.drop label.length))
  | later {left p : ℕ} {label off : List UInt8} {c : Option (ℕ × List UInt8)} : LabelAt R p label →
      NumberAt R (p + (label.length + 1)) off → ¬label.isPrefixOf s →
      Chooses R s left (p + (label.length + 1) + off.length) c → Chooses R s (left + 1) p c

/-- **A chain of nodes for a symbol**, from the address of a node on: whole nodes inside the region,
each the child of the one before. It goes on until the symbol is used up, no child is chosen, a child
is at the null address, or the region ends in a number. -/
inductive Chain (R : Region) : ℕ → List UInt8 → Prop where
  | null {s : List UInt8} : Chain R 0 s
  | cut {p : ℕ} {s : List UInt8} : CutAt R p → Chain R p s
  | used {p : ℕ} {size : List UInt8} : NumberAt R p size → Chain R p []
  | last {p : ℕ} {s size : List UInt8} {count : UInt8} : NumberAt R p size →
      R.view (sizeAdd (p + size.length) (number size)) = .ok count →
      Chooses R s count.toNat (sizeAdd (p + size.length) (number size) + 1) none → Chain R p s
  | child {p q : ℕ} {s t size : List UInt8} {count : UInt8} : NumberAt R p size →
      R.view (sizeAdd (p + size.length) (number size)) = .ok count →
      Chooses R s count.toNat (sizeAdd (p + size.length) (number size) + 1) (some (q, t)) →
      Chain R q t → Chain R p s

/-- The run returns an address or panics. -/
def Returns (r : Except Stop ℕ) : Prop := r = .error .panic ∨ ∃ a, r = .ok a

/-- The lookup comes to an end, and reads no byte outside the region before. -/
def WalkReturns (R : Region) (im : Image) (symbol : CString) : Prop :=
  ∃ fuel, Returns (imageResolveExport R.view fuel im (some symbol))

/-! ## Reads -/

section Reading

variable {R : Region} {p : ℕ} {label bs : List UInt8}

/-- A byte that cannot be read is outside. -/
lemma Region.view_cases (a : ℕ) : R.view a = .error .outside ∨ ∃ b, R.view a = .ok b := by
  unfold Region.view
  split_ifs
  · split
    · exact .inr ⟨_, rfl⟩
    · exact .inl rfl
  · exact .inl rfl

/-- One more byte in front. -/
lemma Reads.cons' {v : View} {b : UInt8} (hb : v p = .ok b) (h : Reads v (p + 1) bs) :
    Reads v p (b :: bs) := by
  rintro (_ | i) c hc
  · obtain rfl := Option.some.inj hc
    exact hb
  · rw [← Nat.add_assoc, Nat.add_right_comm]
    exact h i c hc

/-- A number that is there lies in the region. -/
lemma NumberAt.le_fend (h : NumberAt R p bs) :
    R.start ≤ p ∧ p < p + bs.length ∧ p + bs.length ≤ R.fend := by
  have hpos := List.length_pos_of_ne_nil h.1.ne_nil
  have hle := h.2.le_fend h.1.ne_nil
  exact ⟨hle.1, Nat.lt_add_of_pos_right hpos, hle.2⟩

/-- The loop of the number reader, from inside the region. -/
lemma readUlebLoop_cases {left : ℕ} (hp : R.start ≤ p) (hleft : p + left = R.fend)
    (bit result : ℕ) :
    (readUlebLoop R.view left p bit result = .error .panic ∧ ∀ bs, ¬NumberAt R p bs) ∨
      ∃ bs, NumberAt R p bs := by
  induction left generalizing p bit result with
  | zero =>
    refine .inl ⟨rfl, fun bs h => ?_⟩
    have hle := h.le_fend
    omega
  | succ left ih =>
    obtain ⟨b, hb⟩ := Region.view_eq_ok_iff.mpr ⟨hp, show p < R.fend by omega⟩
    rw [readUlebLoop, hb]
    simp only [Except.bind, bind]
    split_ifs with hmore
    · rcases @ih (p + 1) (by omega) (by omega) (bit + 7) _ with ⟨hpanic, hnone⟩ | ⟨bs, hbs⟩
      · refine .inl ⟨hpanic, ?_⟩
        rintro bs ⟨hterm, hreads⟩
        cases bs with
        | nil => exact hterm
        | cons b' bs =>
          obtain rfl : b' = b := Except.ok.inj (hreads.cons.1.symm.trans hb)
          cases bs with
          | nil => exact hmore hterm
          | cons b'' bs => exact hnone _ ⟨hterm.2, hreads.cons.2⟩
      · refine .inr ⟨b :: bs, ?_, hbs.2.cons' hb⟩
        cases bs with
        | nil => exact hbs.1.elim
        | cons b' bs => exact ⟨hmore, hbs.1⟩
    · exact .inr ⟨[b], not_not.mp hmore, Reads.cons' hb fun i c hc => by simp at hc⟩

/-- The number reader where a number is. -/
lemma NumberAt.read (h : NumberAt R p bs) :
    readUleb128 R.view p R.fend = .ok (number bs, p + bs.length) :=
  readUleb128_reads h.1 h.2 h.le_fend.2.2

/-- The number reader, on arbitrary bytes. -/
lemma readUleb128_cases (p : ℕ) :
    (p < R.start ∧ readUleb128 R.view p R.fend = .error .outside) ∨
    (CutAt R p ∧ readUleb128 R.view p R.fend = .error .panic) ∨ ∃ bs, NumberAt R p bs := by
  rcases Nat.lt_or_ge p R.start with hp | hp
  · obtain ⟨left, hleft⟩ : ∃ k, R.fend - p = k + 1 := ⟨R.fend - p - 1, by rw [Region.fend]; omega⟩
    refine .inl ⟨hp, ?_⟩
    rw [readUleb128, hleft, readUlebLoop, Region.view, if_neg (by omega)]
    rfl
  · rcases Nat.lt_or_ge R.fend p with hend | hend
    · refine .inr (.inl ⟨⟨hp, fun bs h => ?_⟩, ?_⟩)
      · have hle := h.le_fend
        omega
      · rw [readUleb128, show R.fend - p = 0 by omega]
        rfl
    · exact .inr ((readUlebLoop_cases hp (by omega) 0 0).imp_left fun h => ⟨⟨hp, h.2⟩, h.1⟩)

/-- Where the number is cut, the reader panics. -/
lemma CutAt.read (h : CutAt R p) : readUleb128 R.view p R.fend = .error .panic := by
  rcases readUleb128_cases (R := R) p with ⟨hp, -⟩ | ⟨-, hpanic⟩ | ⟨bs, hbs⟩
  · exact absurd h.1 (Nat.not_le.mpr hp)
  · exact hpanic
  · exact absurd hbs (h.2 bs)

/-- The string reader where a label is. -/
lemma LabelAt.read (h : LabelAt R p label) :
    cString R.view p = .ok label ∧ sizeAdd p (label.length + 1) = p + (label.length + 1) := by
  have hfits := R.fits
  have hle := (h.2.le_fend (by simp)).2
  rw [Region.fend, List.length_append, List.length_singleton] at hle
  exact ⟨cString_reads h.1 h.2 (by omega), sizeAdd_of_lt (by omega)⟩

/-- The string reader, on arbitrary bytes. -/
lemma cString_cases (p : ℕ) :
    cString R.view p = .error .outside ∨ ∃ label, LabelAt R p label := by
  have hloop : ∀ left p, cStringLoop R.view left p = .error .outside ∨
      ∃ label, LabelAt R p label := by
    intro left
    induction left with
    | zero => exact fun p => .inl rfl
    | succ left ih =>
      intro p
      rcases Region.view_cases (R := R) p with houtside | ⟨b, hb⟩
      · rw [cStringLoop, houtside]
        exact .inl rfl
      · rw [cStringLoop, hb]
        simp only [Except.bind, bind]
        split_ifs with hzero
        · refine .inr ⟨[], List.not_mem_nil, Reads.cons' (hzero ▸ hb) fun i c hc => ?_⟩
          simp at hc
        · rcases ih (p + 1) with houtside | ⟨label, hnul, hreads⟩
          · rw [houtside]
            exact .inl rfl
          · refine .inr ⟨b :: label, ?_, hreads.cons' hb⟩
            rw [List.mem_cons, not_or]
            exact ⟨Ne.symm hzero, hnul⟩
  exact hloop _ p

end Reading

/-! ## The lookup -/

section Lookup

variable {R : Region} {im : Image} {s : List UInt8} {left p : ℕ}

/-- The loop over the children, at a label. -/
lemma childLoop_label (hexports : im.exports = ⟨R.start, R.fend⟩) {label : List UInt8}
    (h : LabelAt R p label) : childLoop R.view im.exports (left + 1) p s =
      (readUleb128 R.view (p + (label.length + 1)) R.fend).bind fun r =>
        if label.isPrefixOf s then .ok (sizeAdd R.start r.1, s.drop label.length)
        else childLoop R.view im.exports left r.2 s := by
  obtain ⟨hlabel, hadd⟩ := h.read
  rw [childLoop, hlabel, hexports]
  simp only [Except.bind, bind]
  rw [hadd]

/-- **The loop over the children takes the child for the symbol**, or the number behind its label
panics. -/
lemma childLoop_chooses (hexports : im.exports = ⟨R.start, R.fend⟩)
    {c : Option (ℕ × List UInt8)} (h : Chooses R s left p c) :
    childLoop R.view im.exports left p s = .ok (c.getD (0, s)) ∨
      c = none ∧ childLoop R.view im.exports left p s = .error .panic := by
  induction h with
  | none => exact .inl rfl
  | cut hlabel hcut =>
    refine .inr ⟨rfl, ?_⟩
    rw [childLoop_label hexports hlabel, hcut.read]
    rfl
  | here hlabel hoff hprefix =>
    refine .inl ?_
    rw [childLoop_label hexports hlabel, hoff.read]
    exact if_pos hprefix
  | later hlabel hoff hprefix _ ih =>
    rw [childLoop_label hexports hlabel, hoff.read]
    simp only [Except.bind, if_neg hprefix]
    exact ih

/-- Unless it reads outside the region, there is such a child, or none. -/
lemma exists_chooses (hexports : im.exports = ⟨R.start, R.fend⟩)
    (h : childLoop R.view im.exports left p s ≠ .error .outside) : ∃ c, Chooses R s left p c := by
  induction left generalizing p with
  | zero => exact ⟨none, .none⟩
  | succ left ih =>
    rcases cString_cases (R := R) p with houtside | ⟨label, hlabel⟩
    · rw [childLoop, houtside] at h
      exact absurd rfl h
    · rw [childLoop_label hexports hlabel] at h
      rcases readUleb128_cases (R := R) (p + (label.length + 1)) with
        ⟨-, houtside⟩ | ⟨hcut, -⟩ | ⟨off, hoff⟩
      · rw [houtside] at h
        exact absurd rfl h
      · exact ⟨none, .cut hlabel hcut⟩
      · rw [hoff.read] at h
        simp only [Except.bind] at h
        by_cases hprefix : label.isPrefixOf s
        · exact ⟨_, .here hlabel hoff hprefix⟩
        · rw [if_neg hprefix] at h
          obtain ⟨c, hc⟩ := ih h
          exact ⟨c, .later hlabel hoff hprefix hc⟩

/-- The end of the symbol. -/
lemma returns_terminalAddr (hexports : im.exports = ⟨R.start, R.fend⟩) (size : ℕ)
    (hp : R.start ≤ p) : Returns (terminalAddr R.view im size p) := by
  unfold terminalAddr
  split_ifs with hsize
  · exact .inr ⟨0, rfl⟩
  · rw [hexports]
    rcases readUleb128_cases (R := R) p with ⟨hlt, -⟩ | ⟨-, hpanic⟩ | ⟨flags, hflags⟩
    · exact absurd hp (Nat.not_le.mpr hlt)
    · rw [hpanic]
      exact .inl rfl
    · rw [hflags.read]
      simp only [Except.bind, bind]
      split_ifs
      · exact .inr ⟨0, rfl⟩
      · rcases readUleb128_cases (R := R) (p + flags.length) with
          ⟨hlt, -⟩ | ⟨-, hpanic⟩ | ⟨offset, hoffset⟩
        · omega
        · rw [hpanic]
          exact .inl rfl
        · rw [hoffset.read]
          exact .inr ⟨_, rfl⟩

/-- One round of the lookup, at a node. -/
lemma walk_node (hexports : im.exports = ⟨R.start, R.fend⟩) {size : List UInt8}
    (h : NumberAt R p size) (fuel : ℕ) : walk R.view im (fuel + 1) p s =
      if s = [] then terminalAddr R.view im (number size) (p + size.length)
      else (R.view (sizeAdd (p + size.length) (number size))).bind fun count =>
        (childLoop R.view im.exports count.toNat
          (sizeAdd (sizeAdd (p + size.length) (number size)) 1) s).bind fun r =>
            if r.1 = 0 then .ok 0 else walk R.view im fuel r.1 r.2 := by
  rw [walk]
  simp only [hexports]
  rw [h.read]
  rfl

/-- The address behind a byte of the region. -/
lemma sizeAdd_one {b : UInt8} (h : R.view p = .ok b) : sizeAdd p 1 = p + 1 := by
  have hlt := (Region.view_eq_ok_iff.mp ⟨b, h⟩).2
  have hfits := R.fits
  rw [Region.fend] at hlt
  exact sizeAdd_of_lt (by omega)

/-- A read outside the region is no return. -/
lemma not_returns_outside : ¬Returns (.error .outside) := by
  rintro (h | ⟨a, h⟩) <;> cases h

/-- Along a chain of nodes the lookup returns. -/
lemma returns_of_chain (hexports : im.exports = ⟨R.start, R.fend⟩) (h : Chain R p s) :
    p = 0 ∨ ∃ fuel, Returns (walk R.view im fuel p s) := by
  -- a node where the symbol is used up
  have hused : ∀ {p size} fuel, NumberAt R p size → Returns (walk R.view im (fuel + 1) p []) := by
    intro p size fuel hsize
    rw [walk_node hexports hsize, if_pos rfl]
    exact returns_terminalAddr hexports _ (hsize.le_fend.1.trans (Nat.le_add_right _ _))
  induction h with
  | null => exact .inl rfl
  | cut hcut =>
    refine .inr ⟨1, .inl ?_⟩
    rw [walk, hexports, hcut.read]
    rfl
  | used hsize => exact .inr ⟨1, hused 0 hsize⟩
  | @last p s size count hsize hcount hchooses =>
    refine .inr ⟨1, ?_⟩
    by_cases hs : s = []
    · exact hs ▸ hused 0 hsize
    · rw [walk_node hexports hsize, if_neg hs, hcount]
      simp only [Except.bind]
      rw [sizeAdd_one hcount]
      rcases childLoop_chooses hexports hchooses with hnone | ⟨-, hpanic⟩
      · rw [hnone]
        exact .inr ⟨0, rfl⟩
      · rw [hpanic]
        exact .inl rfl
  | @child p q s t size count hsize hcount hchooses _ ih =>
    have hround : ∀ fuel, Returns (if q = 0 then .ok 0 else walk R.view im fuel q t) →
        Returns (walk R.view im (fuel + 1) p s) := by
      intro fuel hreturns
      by_cases hs : s = []
      · exact hs ▸ hused fuel hsize
      · rw [walk_node hexports hsize, if_neg hs, hcount]
        simp only [Except.bind]
        rw [sizeAdd_one hcount]
        rcases childLoop_chooses hexports hchooses with hsome | ⟨hnone, -⟩
        · rw [hsome]
          exact hreturns
        · cases hnone
    by_cases hq : q = 0
    · refine .inr ⟨1, hround 0 ?_⟩
      rw [if_pos hq]
      exact .inr ⟨0, rfl⟩
    · obtain ⟨fuel, hreturns⟩ := ih.resolve_left hq
      refine .inr ⟨fuel + 1, hround fuel ?_⟩
      rwa [if_neg hq]

/-- Where the lookup returns, there is a chain of nodes. -/
lemma chain_of_returns (hexports : im.exports = ⟨R.start, R.fend⟩) {fuel : ℕ}
    (h : Returns (walk R.view im fuel p s)) : Chain R p s := by
  induction fuel generalizing p s with
  | zero => rcases h with h | ⟨a, h⟩ <;> cases h
  | succ fuel ih =>
    rcases readUleb128_cases (R := R) p with ⟨-, houtside⟩ | ⟨hcut, -⟩ | ⟨size, hsize⟩
    · rw [walk, hexports, houtside] at h
      exact absurd h not_returns_outside
    · exact .cut hcut
    · rw [walk_node hexports hsize] at h
      split_ifs at h with hs
      · exact hs ▸ .used hsize
      · rcases Region.view_cases (R := R) (sizeAdd (p + size.length) (number size)) with
          houtside | ⟨count, hcount⟩
        · rw [houtside] at h
          exact absurd h not_returns_outside
        · rw [hcount] at h
          simp only [Except.bind] at h
          rw [sizeAdd_one hcount] at h
          obtain ⟨c, hchooses⟩ : ∃ c, Chooses R s count.toNat
              (sizeAdd (p + size.length) (number size) + 1) c := by
            refine exists_chooses hexports fun houtside => ?_
            rw [houtside] at h
            exact not_returns_outside h
          cases c with
          | none => exact .last hsize hcount hchooses
          | some c =>
            obtain ⟨q, t⟩ := c
            rcases childLoop_chooses hexports hchooses with hsome | ⟨hnone, -⟩
            · rw [hsome] at h
              refine .child hsize hcount hchooses ?_
              by_cases hq : q = 0
              · exact hq ▸ .null
              · exact ih ((if_neg hq).subst h)
            · cases hnone

end Lookup

/-- **On arbitrary bytes the lookup comes to an end inside the region exactly if** the bytes are,
from the start of the region on, a chain of nodes for the symbol.

**Proof sketch.** One round of the lookup reads one node and takes the child that the symbol goes to
(`walk_node`, `childLoop_chooses`). One direction is an induction on the chain, the other on the
number of rounds. -/
theorem walkReturns_iff {R : Region} {im : Image} (hexports : im.exports = ⟨R.start, R.fend⟩)
    (hstart : R.start ≠ 0) (symbol : CString) :
    WalkReturns R im symbol ↔ Chain R R.start symbol.bytes := by
  have hlookup : ∀ fuel, imageResolveExport R.view fuel im (some symbol) =
      walk R.view im fuel R.start symbol.bytes := by
    intro fuel
    rw [imageResolveExport, hexports, if_neg hstart]
  simp only [WalkReturns, hlookup]
  constructor
  · rintro ⟨fuel, hfuel⟩
    exact chain_of_returns hexports hfuel
  · exact fun h => (returns_of_chain hexports h).resolve_left hstart

/-- A number of one byte in a region. -/
lemma numberAt_byte {R : Region} (off : ℕ) (b : UInt8) (hb : b &&& 0x80 = 0)
    (h : R.Has off [b]) : NumberAt R (R.start + off) [b] :=
  ⟨hb, h.reads⟩

/-- A label in a region. -/
lemma labelAt_bytes {R : Region} (off : ℕ) (label : List UInt8) (hnul : 0 ∉ label)
    (h : R.Has off (label ++ [0])) : LabelAt R (R.start + off) label :=
  ⟨hnul, h.reads⟩

/-- The symbol `_ab` in a trie of three nodes. -/
theorem walkReturns_iff_longer :
    WalkReturns twoSymbolsRegion twoSymbolsImage (CString.ofBytes [95, 97, 98]) := by
  have hhas : ∀ off bs, twoSymbolsRegion.Has off bs →
      Reads twoSymbolsRegion.view (4096 + off) bs := fun off bs h => h.reads
  refine (walkReturns_iff (show twoSymbolsImage.exports = ⟨twoSymbolsRegion.start,
    twoSymbolsRegion.fend⟩ from rfl) (by decide) (CString.ofBytes [95, 97, 98])).mpr ?_
  refine .child (numberAt_byte 0 0 (by decide) ⟨_, rfl⟩) (hhas 1 [1] ⟨_, rfl⟩).cons.1
    (.here (labelAt_bytes 2 [95, 97] (by decide) ⟨_, rfl⟩)
      (numberAt_byte 5 6 (by decide) ⟨_, rfl⟩) rfl) ?_
  refine .child (numberAt_byte 6 2 (by decide) ⟨_, rfl⟩) (hhas 9 [1] ⟨_, rfl⟩).cons.1
    (.here (labelAt_bytes 10 [98] (by decide) ⟨_, rfl⟩)
      (numberAt_byte 12 13 (by decide) ⟨_, rfl⟩) rfl) ?_
  exact .used (numberAt_byte 13 2 (by decide) ⟨_, rfl⟩)

/-- An image with these bytes as its exports. -/
def exporting (R : Region) : Image :=
  ⟨[], 8192, 0, [], .null, .null, .null, .null, ⟨R.start, R.fend⟩, []⟩

/-- A region of one byte, which ends before the number of children. -/
def cutRegion : Region := ⟨4096, [0], by decide⟩

/-- A node with one child, itself, without a label. -/
def loopRegion : Region := ⟨4096, [0, 1, 0, 0], by decide⟩

/-- **A trie that is cut off is read beyond its end, and a loop is followed for ever.** -/
theorem not_walkReturns_cut :
    ¬WalkReturns cutRegion (exporting cutRegion) (CString.ofBytes [97]) ∧
      ¬WalkReturns loopRegion (exporting loopRegion) (CString.ofBytes [97]) := by
  constructor
  · rintro ⟨fuel, hfuel⟩
    cases fuel with
    | zero => rcases hfuel with h | ⟨a, h⟩ <;> cases h
    | succ fuel =>
      have herror : imageResolveExport cutRegion.view (fuel + 1) (exporting cutRegion)
          (some (CString.ofBytes [97])) = .error .outside := rfl
      exact not_returns_outside (herror ▸ hfuel)
  · rintro ⟨fuel, hfuel⟩
    have hsize : NumberAt loopRegion 4096 [0] := @numberAt_byte loopRegion 0 0 (by decide) ⟨_, rfl⟩
    have hchild : Chooses loopRegion [97] 1 4098 (some (4096, [97])) :=
      .here (@labelAt_bytes loopRegion 2 [] (by decide) ⟨_, rfl⟩)
        (@numberAt_byte loopRegion 3 0 (by decide) ⟨_, rfl⟩) rfl
    have hround : ∀ fuel, walk loopRegion.view (exporting loopRegion) (fuel + 1) 4096 [97] =
        walk loopRegion.view (exporting loopRegion) fuel 4096 [97] := by
      intro fuel
      rw [walk_node rfl hsize, if_neg (by decide)]
      have hnumber : sizeAdd (4096 + [(0 : UInt8)].length) (number [0]) = 4097 := by decide
      have hcount : loopRegion.view 4097 = .ok 1 := rfl
      have htake := (@childLoop_chooses _ (exporting loopRegion) _ _ _ rfl _ hchild).resolve_right
        fun h => Option.some_ne_none _ h.1
      rw [hnumber, hcount]
      simp only [Except.bind]
      rw [sizeAdd_one hcount, show (1 : UInt8).toNat = 1 from rfl, htake]
      exact if_neg (by decide)
    have hendless : ∀ fuel, walk loopRegion.view (exporting loopRegion) fuel 4096 [97] =
        .error .endless := by
      intro fuel
      induction fuel with
      | zero => rfl
      | succ fuel ih => rw [hround, ih]
    have herror : imageResolveExport loopRegion.view fuel (exporting loopRegion)
        (some (CString.ofBytes [97])) = .error .endless := hendless fuel
    rw [herror] at hfuel
    rcases hfuel with h | ⟨a, h⟩ <;> cases h

end Asteros.Dyld
