import Asteros.Lib.Tiling
import Asteros.Malloc.Allocator

set_option autoImplicit false

/-!
# Lists of chunks

What the list of the allocator means, without the memory: chunks with an address, a size and a
flag, which cut the blocks from `mmap` into pieces. The allocator only ever cuts a piece in two or
joins two neighbours, and puts a new block at the end, so the chunks go on tiling the blocks.

## Main definitions

* `Chunk` — a chunk, and the addresses it spans with its header.
* `Layout` — the chunks tile the blocks and are aligned.
* `splitChunk`, `mergePass` — what `malloc` and `free` do to a list.

## Main results

* `Layout.recut` — cutting some chunks anew keeps the layout.
* `Layout.append` — so does a new block.
* `Layout.mergePass` — and the pass of `free`.
-/

namespace Asteros.Malloc

open Tiling

/-- A chunk of the list. -/
structure Chunk where
  /-- The address of its header. -/
  addr : ℕ
  /-- The size of its payload. -/
  size : ℕ
  /-- It is not handed out. -/
  free : Bool
  deriving DecidableEq

namespace Chunk

/-- The address of the payload. -/
def payload (c : Chunk) : ℕ := c.addr + sizeofChunk

/-- The address behind the payload. -/
def finish (c : Chunk) : ℕ := c.addr + sizeofChunk + c.size

/-- The addresses of the header and the payload. -/
def span (c : Chunk) : Set ℕ := Set.Ico c.addr c.finish

/-- An address of a chunk. -/
lemma mem_span {c : Chunk} {x : ℕ} : x ∈ c.span ↔ c.addr ≤ x ∧ x < c.addr + 32 + c.size :=
  Iff.rfl

/-- Chunks that have no address in common lie beside each other. -/
lemma apart_of_disjoint {c d : Chunk} (h : Disjoint c.span d.span) :
    c.finish ≤ d.addr ∨ d.finish ≤ c.addr := by
  have hc : c.addr ∈ c.span → c.addr ∉ d.span := fun hx => Set.disjoint_left.mp h hx
  have hd : d.addr ∈ c.span → d.addr ∉ d.span := fun hx => Set.disjoint_left.mp h hx
  simp only [mem_span] at hc hd
  simp only [finish, sizeofChunk]
  omega

/-- Chunks beside each other have no address in common. -/
lemma disjoint_of_apart {c d : Chunk} (h : c.finish ≤ d.addr ∨ d.finish ≤ c.addr) :
    Disjoint c.span d.span := by
  refine Set.disjoint_left.mpr fun x hx hx' => ?_
  simp only [mem_span] at hx hx'
  simp only [finish, sizeofChunk] at h
  omega

end Chunk

/-- The addresses of the blocks. -/
def region (bs : List Block) : Set ℕ := {x | ∃ b ∈ bs, b.base ≤ x ∧ x < b.finish}

/-- The chunks of a list tile the blocks, and are aligned. -/
structure Layout (bs : List Block) (cs : List Chunk) : Prop where
  /-- The blocks lie in the address space, and not at `NULL`. -/
  blocks : ∀ b ∈ bs, b.base ≠ 0 ∧ b.finish < 2 ^ 64
  /-- The chunks are disjoint and cover the blocks. -/
  tiles : Tiles Chunk.span (region bs) cs
  /-- Headers are aligned to 16 bytes, and so are the payloads behind them. -/
  aligned : ∀ c ∈ cs, 16 ∣ c.addr ∧ 16 ∣ c.size

section

variable {bs : List Block} {cs left right ts us : List Chunk} {c d : Chunk} {x n : ℕ}

/-- A chunk lies in the address space, and not at `NULL`. -/
lemma Layout.bounds (h : Layout bs cs) (hc : c ∈ cs) :
    c.addr ≠ 0 ∧ c.addr + sizeofChunk + c.size < 2 ^ 64 := by
  have hin : ∀ x, x ∈ c.span → ∃ b ∈ bs, b.base ≤ x ∧ x < b.finish := fun x hx =>
    (h.tiles.cover x).mpr ⟨c, hc, hx⟩
  obtain ⟨b, hb, hlo, -⟩ := hin c.addr (by rw [Chunk.mem_span]; omega)
  obtain ⟨b', hb', -, hhi⟩ := hin (c.addr + 31 + c.size) (by rw [Chunk.mem_span]; omega)
  have hb0 := (h.blocks b hb).1
  have hb1 := (h.blocks b' hb').2
  constructor
  · omega
  · rw [sizeofChunk]
    omega

/-- Two chunks lie beside each other. -/
lemma Layout.apart (h : Layout bs cs) (hc : c ∈ cs) (hd : d ∈ cs) (hne : c ≠ d) :
    c.finish ≤ d.addr ∨ d.finish ≤ c.addr :=
  Chunk.apart_of_disjoint (h.tiles.disjoint_of_ne hc hd hne)

/-- Chunks are known by their addresses. -/
lemma Layout.eq_of_addr (h : Layout bs cs) (hc : c ∈ cs) (hd : d ∈ cs) (haddr : c.addr = d.addr) :
    c = d := by
  refine h.tiles.eq_of_mem hc hd (x := c.addr) ?_ ?_
  · rw [Chunk.mem_span]
    omega
  · rw [Chunk.mem_span]
    omega

/-- **Cutting some chunks anew** keeps the layout. -/
theorem Layout.recut (h : Layout bs (left ++ ts ++ right)) (hr : Recut Chunk.span ts us)
    (haligned : ∀ u ∈ us, 16 ∣ u.addr ∧ 16 ∣ u.size) : Layout bs (left ++ us ++ right) := by
  refine ⟨h.blocks, h.tiles.recut hr, fun c hc => ?_⟩
  rcases List.mem_append.mp hc with hc | hc
  · rcases List.mem_append.mp hc with hc | hc
    · exact h.aligned c (by simp [hc])
    · exact haligned c hc
  · exact h.aligned c (by simp [hc])

/-- The empty list tiles no blocks. -/
lemma layout_nil : Layout [] [] where
  blocks := by simp
  tiles := by simpa [region] using tiles_nil
  aligned := by simp

/-- **A new block** with one chunk. -/
theorem Layout.append (h : Layout bs cs) {b : Block} (hfresh : b.Fresh bs) {f : Bool}
    (hlen : 32 ≤ b.len) (hdvd : 16 ∣ b.len) :
    Layout (b :: bs) (cs ++ [⟨b.base, b.len - sizeofChunk, f⟩]) := by
  obtain ⟨hpage, hbase, hfin, hapart⟩ := hfresh
  have hspan : Chunk.span ⟨b.base, b.len - sizeofChunk, f⟩ = region [b] := by
    ext x
    simp only [Chunk.mem_span, region, Block.finish, sizeofChunk, List.mem_singleton,
      exists_eq_left, Set.mem_ofPred_eq]
    omega
  have hregion : region (b :: bs) = region bs ∪ region [b] := by
    ext x
    simp [region, or_comm]
  have hd : Disjoint (region bs) (region [b]) := by
    refine Set.disjoint_left.mpr ?_
    rintro x ⟨c, hc, hx⟩ ⟨b', hb', hx'⟩
    obtain rfl := List.mem_singleton.mp hb'
    have := hapart c hc
    omega
  refine ⟨fun c hc => ?_, ?_, fun c hc => ?_⟩
  · rcases List.mem_cons.mp hc with rfl | hc
    · exact ⟨hbase, by omega⟩
    · exact h.blocks c hc
  · rw [hregion]
    refine h.tiles.append ?_ hd
    rw [← hspan]
    exact tiles_singleton
  · rcases List.mem_append.mp hc with hc | hc
    · exact h.aligned c hc
    · obtain rfl := List.mem_singleton.mp hc
      simp only [sizeofChunk]
      omega

/-! ## Cuts -/

/-- A chunk with another flag. -/
lemma recut_flag (c : Chunk) (f : Bool) : Recut Chunk.span [c] [{ c with free := f }] where
  disjoint := List.pairwise_singleton _ _
  cover x := by simp [Chunk.mem_span]

/-- A chunk cut in two, with a new header behind `n` bytes of payload. -/
lemma recut_split (hn : n + sizeofChunk ≤ c.size) (f f' : Bool) :
    Recut Chunk.span [c] [⟨c.addr, n, f⟩,
      ⟨c.addr + sizeofChunk + n, c.size - n - sizeofChunk, f'⟩] := by
  rw [sizeofChunk] at hn ⊢
  constructor
  · refine List.pairwise_pair.mpr (Chunk.disjoint_of_apart (Or.inl ?_))
    exact le_rfl
  · intro x
    simp only [List.mem_cons, List.not_mem_nil, or_false, exists_eq_left, exists_eq_or_imp,
      Chunk.mem_span]
    omega

/-- Two chunks joined, the second one right behind the first. -/
lemma recut_merge (hadj : c.finish = d.addr) (f : Bool) :
    Recut Chunk.span [c, d] [⟨c.addr, c.size + (sizeofChunk + d.size), f⟩] := by
  rw [Chunk.finish, sizeofChunk] at hadj
  rw [sizeofChunk]
  refine ⟨List.pairwise_singleton _ _, fun x => ?_⟩
  simp only [List.mem_cons, List.not_mem_nil, or_false, exists_eq_left, exists_eq_or_imp,
    Chunk.mem_span]
  omega

/-! ## What the allocator does to a list -/

/-- The room that a chunk needs for it to be split behind `n` bytes. -/
def splitRoom : ℕ := sizeofChunk + 8

/-- A chunk handed out for `n` bytes: it is split if there is room. -/
def splitChunk (n : ℕ) (c : Chunk) : List Chunk :=
  if n + splitRoom ≤ c.size then
    [⟨c.addr, n, false⟩, ⟨c.addr + sizeofChunk + n, c.size - n - sizeofChunk, true⟩]
  else [{ c with free := false }]

/-- The pass of `free` over a list: a free chunk swallows the next one if that is free and lies
right behind it, at most `limit` times. -/
def mergePass : ℕ → List Chunk → List Chunk
  | 0, cs => cs
  | _ + 1, [] => []
  | _ + 1, [c] => [c]
  | limit + 1, c :: d :: cs =>
    if c.free ∧ d.free ∧ c.finish = d.addr then
      ⟨c.addr, c.size + (sizeofChunk + d.size), true⟩ :: mergePass limit cs
    else c :: mergePass limit (d :: cs)

/-- Handing out a chunk cuts it anew. -/
lemma recut_splitChunk (n : ℕ) (c : Chunk) : Recut Chunk.span [c] (splitChunk n c) := by
  unfold splitChunk
  split
  · next hroom => exact recut_split (by rw [splitRoom] at hroom; omega) _ _
  · exact recut_flag c false

/-- The chunks that are cut are aligned. -/
lemma aligned_splitChunk (hn : 16 ∣ n) (hc : 16 ∣ c.addr ∧ 16 ∣ c.size) :
    ∀ u ∈ splitChunk n c, 16 ∣ u.addr ∧ 16 ∣ u.size := by
  intro u hu
  unfold splitChunk at hu
  split at hu
  · simp only [List.mem_cons, List.not_mem_nil, or_false, sizeofChunk] at hu
    rcases hu with rfl | rfl
    · exact ⟨hc.1, hn⟩
    · constructor
      · show 16 ∣ c.addr + 32 + n
        omega
      · show 16 ∣ c.size - n - 32
        omega
  · obtain rfl := List.mem_singleton.mp hu
    exact hc

/-- Handing out a chunk of the list. -/
lemma Layout.splitChunk (h : Layout bs (left ++ [c] ++ right)) (hn : 16 ∣ n) :
    Layout bs (left ++ splitChunk n c ++ right) :=
  h.recut (recut_splitChunk n c) (aligned_splitChunk hn (h.aligned c (by simp)))

/-- Joining two chunks of the list. -/
lemma Layout.merge (h : Layout bs (left ++ [c, d] ++ right)) (hadj : c.finish = d.addr)
    (f : Bool) : Layout bs (left ++ [⟨c.addr, c.size + (sizeofChunk + d.size), f⟩] ++ right) := by
  have hc := h.aligned c (by simp)
  have hd := h.aligned d (by simp)
  refine h.recut (recut_merge hadj f) fun u hu => ?_
  obtain rfl := List.mem_singleton.mp hu
  refine ⟨hc.1, ?_⟩
  show 16 ∣ c.size + (32 + d.size)
  omega

/-- **The pass of `free`** keeps the layout. -/
theorem Layout.mergePass {limit : ℕ} (h : Layout bs (left ++ cs)) :
    Layout bs (left ++ mergePass limit cs) := by
  induction limit, cs using Malloc.mergePass.induct generalizing left with
  | case1 cs => simpa [Malloc.mergePass] using h
  | case2 limit => simpa [Malloc.mergePass] using h
  | case3 limit c => simpa [Malloc.mergePass] using h
  | case4 limit c d cs hmerge ih =>
    rw [Malloc.mergePass, if_pos hmerge]
    have hsplit : Layout bs (left ++ [c, d] ++ cs) := by simpa using h
    simpa using ih (hsplit.merge hmerge.2.2 true)
  | case5 limit c d cs hmerge ih =>
    rw [Malloc.mergePass, if_neg hmerge]
    have hsplit : Layout bs ((left ++ [c]) ++ d :: cs) := by simpa using h
    simpa using ih hsplit

end

end Asteros.Malloc
