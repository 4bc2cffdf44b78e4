import Asteros.Malloc.Refinement

set_option autoImplicit false

/-!
# What the functions of the allocator do

One specification for each function of `malloc.c`, over the list of chunks that the heap holds.
The scans of the allocator look at `CHUNK_SCAN_LIMIT` chunks at most, and the first growth of the
list is not checked for failure; the two states in which this goes wrong are excluded by name.

## Main definitions

* `Holds` — the heap holds a list of chunks that tile its blocks.
* `InitFails` — the list is empty and `mmap` gives no block to begin it with.
* `CutsChain` — the new block is linked in the middle of the list.

## Main results

* `mallocNolock_spec`, `freeNolock_spec` — the two functions on the list.
* `calloc_spec`, `realloc_spec`, `alignedAlloc_spec` — the public functions over them.
-/

namespace Asteros.Malloc

open LinkedList Tiling Asteros.Libc ByteMemory

/-- The heap holds the list of chunks, and they tile its blocks. -/
structure Holds (h : Heap) (cs : List Chunk) : Prop where
  /-- The memory holds the list. -/
  stored : Stored h.mem h.gHead cs
  /-- The chunks tile the blocks. -/
  layout : Layout h.blocks cs

section

variable {h h' : Heap} {cs cs' left right : List Chunk} {c d : Chunk} {n size ptr : ℕ}

/-! ## Growing -/

/-- `mmap` fails or gives a fresh block of zeros. -/
lemma mmap_cases (h : Heap) (len : ℕ) :
    (∃ as, mmap h len = (none, { h with answers := as })) ∨
    ∃ base as, Block.Fresh ⟨base, len⟩ h.blocks ∧ mmap h len = (some base, { h with
      mem := store h.mem base (List.replicate len 0)
      blocks := ⟨base, len⟩ :: h.blocks
      answers := as }) := by
  unfold mmap
  split
  · exact Or.inl ⟨h.answers, rfl⟩
  · next as _ => exact Or.inl ⟨as, rfl⟩
  · next base as _ =>
    split
    · next hfresh => exact Or.inr ⟨base, as, hfresh, rfl⟩
    · exact Or.inl ⟨as, rfl⟩

/-- The heap has grown by a block with the free chunk `d`, which is not linked yet. -/
structure Grown (h h' : Heap) (cs : List Chunk) (d : Chunk) : Prop where
  /-- The new chunk is free. -/
  free : d.free = true
  /-- `g_head` is not touched. -/
  gHead : h'.gHead = h.gHead
  /-- The memory holds the old list. -/
  stored : Stored h'.mem h'.gHead cs
  /-- The chunks tile the blocks, the new one included. -/
  layout : Layout h'.blocks (cs ++ [d])
  /-- The memory holds the new chunk as a list of its own. -/
  fresh : Stored h'.mem d.addr [d]
  /-- The old chunks keep their payloads. -/
  kept : Kept h.mem h'.mem cs cs

/-- The block that `arena_grow` asks for has enough room. -/
lemma blockSize_spec (hn : n + sizeofChunk < 2 ^ 64) (hdvd : 16 ∣ n) :
    n + 32 ≤ blockSize n ∧ blockSize n < 2 ^ 64 ∧ 16 ∣ blockSize n := by
  have hsum : sizeAdd n sizeofChunk = n + 32 := sizeAdd_of_lt hn
  have harena : arenaSize = 8388608 := rfl
  rw [sizeofChunk] at hn
  rw [blockSize, hsum]
  split
  · exact ⟨by omega, by omega, by omega⟩
  · exact ⟨by omega, by omega, by omega⟩

/-- The header that `arena_grow` writes is a list of one free chunk. -/
lemma stored_initBlock {m : ℕ → UInt8} {base len : ℕ} (hbase : base ≠ 0) (hlen : 32 ≤ len)
    (hlt : len < 2 ^ 64) :
    Stored (initBlock m base len) base [⟨base, len - sizeofChunk, true⟩] := by
  have hsub : sizeSub len sizeofChunk = len - sizeofChunk := sizeSub_of_le hlen hlt
  have hwidth : len - sizeofChunk < 256 ^ Field.size.width := by
    simp only [Field.width]
    omega
  refine stored_cons.mpr ⟨rfl, hbase, ?_, ?_, stored_nil.mpr ?_⟩
  · simp (disch := first | assumption | decide) [initBlock, hsub]
  · simp (disch := decide) [initBlock]
  · simp (disch := decide) [initBlock]

/-- `arena_grow` fails or grows the heap by a chunk with enough room. -/
lemma arenaGrow_cases (hh : Holds h cs) (hn : n + sizeofChunk < 2 ^ 64) (hdvd : 16 ∣ n) :
    ((mmap h (blockSize n)).1 = none ∧ ∃ as, arenaGrow h n = (0, { h with answers := as })) ∨
    ((mmap h (blockSize n)).1 ≠ none ∧
      ∃ d h', arenaGrow h n = (d.addr, h') ∧ n ≤ d.size ∧ Grown h h' cs d) := by
  obtain ⟨hroom, hlt, hlendvd⟩ := blockSize_spec hn hdvd
  unfold arenaGrow
  generalize blockSize n = len at hroom hlt hlendvd
  rcases mmap_cases h len with ⟨as, hmap⟩ | ⟨base, as, hfresh, hmap⟩
  · left
    exact ⟨by rw [hmap], as, by rw [hmap]⟩
  · right
    refine ⟨by simp [hmap], ?_⟩
    simp only [hmap]
    have hlen : 32 ≤ len := by omega
    have hlayout := hh.layout.append hfresh (f := true) hlen hlendvd
    have hframe : ∀ c ∈ cs, ∀ x, c.addr ≤ x → x < c.finish →
        initBlock (store h.mem base (List.replicate len 0)) base len x = h.mem x := by
      intro c hc x hx hx'
      have hapart := Chunk.apart_of_disjoint
        ((List.pairwise_append.mp hlayout.tiles.disjoint).2.2 c hc _ (List.mem_singleton_self _))
      simp only [Chunk.finish, sizeofChunk] at hapart hx'
      have hout : x < base ∨ base + sizeofChunk ≤ x := by
        rw [sizeofChunk]
        omega
      simp only [initBlock]
      rw [set_of_not_mem hout, set_of_not_mem hout, set_of_not_mem hout,
        store_of_not_mem (by rw [List.length_replicate]; omega)]
    refine ⟨⟨base, len - sizeofChunk, true⟩, _, rfl, ?_, rfl, rfl, ?_, hlayout,
      stored_initBlock hfresh.2.1 hlen hlt, ?_⟩
    · show n ≤ len - 32
      omega
    · refine hh.stored.congr fun c hc x hx hx' => hframe c hc x hx ?_
      rw [Chunk.finish]
      omega
    · intro c hc _
      refine ⟨hc, fun x hx hx' => hframe c hc x ?_ hx'⟩
      rw [Chunk.payload] at hx
      omega

/-! ## `malloc_nolock` -/

/-- The list is empty, and `mmap` gives no block to begin it with. `malloc_nolock` then reads the
link of a tail that is `NULL`. -/
def InitFails (h : Heap) : Prop := h.gHead = 0 ∧ (mmap h arenaSize).1 = none

/-- The list is longer than the walk to its tail goes, none of the chunks that the scan looks at
has room, and `mmap` gives a block. `malloc_nolock` then links the block to a chunk that has a
successor, and the list loses its end. -/
def CutsChain (h : Heap) (size : ℕ) : Prop :=
  ∃ cs, Stored h.mem h.gHead cs ∧ chunkScanLimit + 1 < cs.length ∧
    (∀ c ∈ cs.take chunkScanLimit, c.fits (roundSize size) = false) ∧
    (mmap h (blockSize (roundSize size))).1 ≠ none

/-- A list that is empty is not cut. -/
lemma not_cutsChain_of_empty (hempty : h.gHead = 0) (size : ℕ) : ¬CutsChain h size := by
  rintro ⟨cs, hstored, hlong, -⟩
  rw [hempty] at hstored
  have hnil : cs.map Chunk.addr = [] := hstored.links.eq_nil
  rw [List.map_eq_nil_iff.mp hnil] at hlong
  exact absurd hlong (by decide)

/-- The size that is looked for is the request rounded up to 16 bytes, and at least 16. -/
lemma roundSize_spec (hsize : size + 48 ≤ 2 ^ 64) :
    size ≤ roundSize size ∧ 16 ∣ roundSize size ∧ roundSize size + splitRoom < 2 ^ 64 := by
  have hround : ∀ k, k + 48 ≤ 2 ^ 64 → align16 k = (k + 15) / 16 * 16 := by
    intro k hk
    rw [align16, sizeAdd_of_lt (by omega)]
    exact land_mask (k := 4) (by omega) (by decide)
  rw [roundSize, splitRoom, sizeofChunk]
  split
  · rw [hround 1 (by decide)]
    omega
  · rw [hround size hsize]
    omega

/-- `arena_init` begins the list, unless it fails. -/
lemma arenaInit_spec (hh : Holds h cs) (hinit : ¬InitFails h) :
    ∃ cs', Holds (arenaInit h) cs' ∧ Kept h.mem (arenaInit h).mem cs cs' ∧ cs' ≠ [] ∧
      (cs ≠ [] → arenaInit h = h ∧ cs' = cs) ∧ (cs = [] → cs'.length = 1) := by
  unfold arenaInit
  cases cs with
  | nil =>
    have hnull : h.gHead = 0 := stored_nil.mp hh.stored
    rw [if_neg (by simp [hnull])]
    rcases arenaGrow_cases (n := 0) hh (by decide) (by decide) with
      ⟨hnone, -⟩ | ⟨-, d, h', hgrow, -, hg⟩
    · exact absurd ⟨hnull, hnone⟩ hinit
    · rw [hgrow]
      refine ⟨[d], ⟨hg.fresh, by simpa using hg.layout⟩, ?_, by simp, by simp, by simp⟩
      intro c hc
      cases hc
  | cons c cs =>
    obtain ⟨hp, hne, -⟩ := stored_cons.mp hh.stored
    rw [if_pos (by rw [hp]; exact hne)]
    exact ⟨c :: cs, hh, Kept.refl, by simp, fun _ => ⟨rfl, rfl⟩, by simp⟩

/-- What a successful allocation gives: a chunk that is handed out and was not before. -/
structure Given (cs cs' : List Chunk) (size ptr : ℕ) (c : Chunk) : Prop where
  /-- The chunk is in the list. -/
  mem : c ∈ cs'
  /-- It is handed out. -/
  inUse : c.free = false
  /-- The pointer is its payload. -/
  payload : c.payload = ptr
  /-- There is room for the request. -/
  size : size ≤ c.size
  /-- It was not handed out before. -/
  new : ∀ d ∈ cs, d.free = false → d.addr ≠ c.addr

/-- The chunk that is handed out of a split. -/
lemma given_splitChunk (hl : Layout h.blocks (left ++ [c] ++ right)) (hf : c.free = true)
    (hroom : n ≤ c.size) (hsize : size ≤ n) : ∃ u,
      Given (left ++ [c] ++ right) (left ++ splitChunk n c ++ right) size (c.addr + sizeofChunk) u
    := by
  have hnew : ∀ d ∈ left ++ [c] ++ right, d.free = false → d.addr ≠ c.addr := by
    intro d hd hdf haddr
    obtain rfl := hl.eq_of_addr hd (by simp) haddr
    rw [hf] at hdf
    cases hdf
  unfold splitChunk
  split
  · exact ⟨⟨c.addr, n, false⟩, by simp, rfl, rfl, hsize, hnew⟩
  · exact ⟨⟨c.addr, c.size, false⟩, by simp, rfl, rfl, hsize.trans hroom, hnew⟩

/-- Handing out a free chunk of the list. -/
lemma takeChunk_spec (hh : Holds h (left ++ [c] ++ right)) (hf : c.free = true)
    (hn : n + splitRoom < 2 ^ 64) (hdvd : 16 ∣ n) :
    Holds { h with mem := takeChunk h.mem c.addr n } (left ++ splitChunk n c ++ right) ∧
      Kept h.mem (takeChunk h.mem c.addr n) (left ++ [c] ++ right)
        (left ++ splitChunk n c ++ right) := by
  refine ⟨⟨stored_takeChunk hh.stored hh.layout hn, hh.layout.splitChunk hdvd⟩, ?_⟩
  refine hh.layout.kept_recut (recut_splitChunk n c) (fun x hx => ?_) fun t ht => ?_
  · exact takeChunk_frame (hh.stored.size c (by simp)) (hh.layout.bounds (by simp)).2 hn hx
  · obtain rfl := List.mem_singleton.mp ht
    exact hf

/-- A chunk that was not handed out after a step that keeps those that are was not before. -/
lemma Given.of_kept {cs₁ : List Chunk} {m m' : ℕ → UInt8} (hk : Kept m m' cs cs₁)
    (hg : Given cs₁ cs' size ptr c) : Given cs cs' size ptr c :=
  ⟨hg.mem, hg.inUse, hg.payload, hg.size, fun d hd hf => hg.new d (hk d hd hf).1 hf⟩

/-- The part of `malloc_nolock` after `arena_init`, when the scan finds a chunk. -/
lemma malloc_found (hh : Holds h cs) (hc : (cs.take chunkScanLimit).find? (Chunk.fits n) = some c)
    (hsize : size ≤ n) (hn : n + splitRoom < 2 ^ 64) (hdvd : 16 ∣ n) :
    ∃ cs', Holds { h with mem := takeChunk h.mem c.addr n } cs' ∧
      Kept h.mem (takeChunk h.mem c.addr n) cs cs' ∧
      ∃ u, Given cs cs' size (c.addr + sizeofChunk) u := by
  have hfits := List.find?_some hc
  simp only [Chunk.fits, Bool.and_eq_true, decide_eq_true_eq] at hfits
  obtain ⟨left, right, rfl⟩ := List.append_of_mem
    (List.mem_of_mem_take (List.mem_of_find?_eq_some hc))
  rw [← List.singleton_append, ← List.append_assoc] at hh ⊢
  obtain ⟨hholds, hkept⟩ := takeChunk_spec hh hfits.1 hn hdvd
  exact ⟨_, hholds, hkept, given_splitChunk hh.layout hfits.1 hfits.2 hsize⟩

/-- The part of `malloc_nolock` after `arena_grow`, when it gives a chunk. -/
lemma malloc_grown (hg : Grown h h' (cs ++ [c]) d) (hroom : n ≤ d.size) (hsize : size ≤ n)
    (hn : n + splitRoom < 2 ^ 64) (hdvd : 16 ∣ n) :
    ∃ cs', Holds { h' with mem := takeChunk (set h'.mem c.addr .next d.addr) d.addr n } cs' ∧
      Kept h.mem (takeChunk (set h'.mem c.addr .next d.addr) d.addr n) (cs ++ [c]) cs' ∧
      ∃ u, Given (cs ++ [c]) cs' size (d.addr + sizeofChunk) u := by
  obtain ⟨-, -, hdsize, hdfree, hdnext⟩ := stored_cons.mp hg.fresh
  have hlinked : Holds { h' with mem := set h'.mem c.addr .next d.addr } (cs ++ [c] ++ [d] ++ []) :=
    ⟨by simpa using stored_link hg.stored hg.layout hdsize hdfree (stored_nil.mp hdnext),
      by simpa using hg.layout⟩
  have hkept : Kept h'.mem (set h'.mem c.addr .next d.addr) (cs ++ [c])
      (cs ++ [c] ++ [d] ++ []) := by
    intro e he _
    refine ⟨by simp only [List.append_nil]; exact List.mem_append_left _ he, fun x hx hx' => ?_⟩
    exact hg.layout.payload_eq (c := c) (by simp) (fun y hy => set_of_not_mem hy)
      (List.mem_append_left _ he) hx hx'
  obtain ⟨hholds, hkept'⟩ := takeChunk_spec hlinked hg.free hn hdvd
  obtain ⟨u, hu⟩ := given_splitChunk hlinked.layout hg.free hroom hsize
  have hall := (hg.kept.trans hkept).trans hkept'
  exact ⟨_, hholds, hall, u, hu.of_kept (hg.kept.trans hkept)⟩

/-- **`malloc_nolock`** returns `NULL` or the payload of a chunk with room for the request, and
keeps the chunks that are handed out. -/
theorem mallocNolock_spec (hh : Holds h cs) (hsize : size + 48 ≤ 2 ^ 64) (hinit : ¬InitFails h)
    (hcut : ¬CutsChain h size) : ∃ p h' cs', mallocNolock h size = some (p, h') ∧ Holds h' cs' ∧
      Kept h.mem h'.mem cs cs' ∧ (p = 0 ∨ ∃ c, Given cs cs' size p c) := by
  obtain ⟨hle, hdvd, hround⟩ := roundSize_spec hsize
  obtain ⟨cs₁, hh₁, hkept₁, hne₁, hsame, hone⟩ := arenaInit_spec hh hinit
  have hfind := findFit_eq (n := roundSize size) hh₁.stored chunkScanLimit
  unfold mallocNolock
  simp only [hfind]
  cases hfit : (cs₁.take chunkScanLimit).find? (Chunk.fits (roundSize size)) with
  | some c =>
    obtain ⟨cs', hholds, hkept, u, hu⟩ := malloc_found hh₁ hfit hle hround hdvd
    exact ⟨_, _, cs', rfl, hholds, hkept₁.trans hkept, Or.inr ⟨u, hu.of_kept hkept₁⟩⟩
  | none =>
    have hhead : (arenaInit h).gHead ≠ 0 := by
      cases cs₁ with
      | nil => exact absurd rfl hne₁
      | cons c cs₁ =>
        obtain ⟨hp, hc, -⟩ := stored_cons.mp hh₁.stored
        rw [hp]
        exact hc
    simp only [Option.map_none, if_neg hhead]
    rcases arenaGrow_cases hh₁ (by rw [splitRoom] at hround; omega) hdvd with
      ⟨-, as, hgrow⟩ | ⟨hgives, d, h', hgrow, hroom, hg⟩
    · rw [hgrow, if_pos rfl]
      exact ⟨_, _, cs₁, rfl, ⟨hh₁.stored, hh₁.layout⟩, hkept₁, Or.inl rfl⟩
    · obtain ⟨init, last, rfl⟩ : ∃ init last, cs₁ = init ++ [last] :=
        ⟨_, _, (List.dropLast_append_getLast hne₁).symm⟩
      have hshort : init.length ≤ chunkScanLimit := by
        by_contra hlong
        cases cs with
        | nil =>
          have hlen := hone rfl
          simp only [List.length_append, List.length_singleton] at hlen
          omega
        | cons c cs =>
          obtain ⟨hheap, hcs⟩ := hsame (by simp)
          rw [hheap, hcs] at hh₁
          rw [hcs] at hfit
          rw [hheap] at hgives
          refine hcut ⟨c :: cs, hh₁.stored, ?_, ?_, hgives⟩
          · rw [← hcs, List.length_append, List.length_singleton]
            omega
          · intro e he
            simpa using List.find?_eq_none.mp hfit e he
      have hd : d.addr ≠ 0 := (stored_cons.mp hg.fresh).2.1
      rw [hgrow, walkTail_eq hh₁.stored hshort, if_neg hd]
      obtain ⟨cs', hholds, hkept, u, hu⟩ := malloc_grown hg hroom hle hround hdvd
      exact ⟨_, _, cs', rfl, hholds, hkept₁.trans hkept, Or.inr ⟨u, hu.of_kept hkept₁⟩⟩

/-! ## `free_nolock` -/

/-- The chunks other than the one a call is given. -/
def others (ptr : ℕ) (cs : List Chunk) : List Chunk := cs.filter fun c => c.payload ≠ ptr

/-- A chunk that the call is not given. -/
lemma mem_others : c ∈ others ptr cs ↔ c ∈ cs ∧ c.payload ≠ ptr := by
  simp [others]

/-- What is kept for all chunks is kept for the others. -/
lemma Kept.others {m m' : ℕ → UInt8} (h : Kept m m' cs cs') : Kept m m' (others ptr cs) cs' :=
  fun c hc hf => h c (mem_others.1 hc).1 hf

/-- The list with the chunk at a pointer free. -/
def mark (ptr : ℕ) (cs : List Chunk) : List Chunk :=
  cs.map fun c => if c.payload = ptr then { c with free := true } else c

/-- No other chunk of a list has the payload of a chunk. -/
lemma mark_append (hnodup : ((left ++ [c] ++ right).map Chunk.addr).Nodup)
    (hptr : c.payload = ptr) :
    mark ptr (left ++ [c] ++ right) = left ++ [{ c with free := true }] ++ right := by
  rw [List.append_assoc, List.singleton_append, List.map_append, List.map_cons,
    List.nodup_middle, List.nodup_cons, ← List.map_append] at hnodup
  have hother : ∀ d ∈ left ++ right, d.payload ≠ ptr := by
    intro d hd heq
    refine hnodup.1 (List.mem_map.mpr ⟨d, hd, ?_⟩)
    exact Nat.add_right_cancel (heq.trans hptr.symm)
  have hsame : ∀ ds : List Chunk, (∀ d ∈ ds, d ∈ left ++ right) → mark ptr ds = ds := by
    intro ds hds
    rw [mark, List.map_congr_left fun d hd => if_neg (hother d (hds d hd)), List.map_id']
  have hl := hsame left fun d hd => List.mem_append_left _ hd
  have hr := hsame right fun d hd => List.mem_append_right _ hd
  rw [mark] at hl hr
  rw [mark, List.map_append, List.map_append, List.map_singleton, if_pos hptr, hl, hr]

/-- **`free_nolock`** marks the chunk and makes its pass; the other chunks that are handed out are
kept. -/
theorem freeNolock_pass (hh : Holds h cs) (hc : c ∈ cs) (hptr : c.payload = ptr) :
    Holds (freeNolock h ptr) (mergePass chunkScanLimit (mark ptr cs)) ∧
      Kept h.mem (freeNolock h ptr).mem (others ptr cs)
        (mergePass chunkScanLimit (mark ptr cs)) := by
  obtain ⟨left, right, rfl⟩ := List.append_of_mem hc
  rw [← List.singleton_append, ← List.append_assoc] at hh ⊢
  have hne : ptr ≠ 0 := by
    rw [← hptr, Chunk.payload, sizeofChunk]
    omega
  have haddr : ptr - sizeofChunk = c.addr := by
    rw [← hptr, Chunk.payload]
    omega
  have hmarked := stored_free hh.stored hh.layout
  have hlayout : Layout h.blocks (left ++ [{ c with free := true }] ++ right) := by
    refine hh.layout.recut (recut_flag c true) fun u hu => ?_
    obtain rfl := List.mem_singleton.mp hu
    exact hh.layout.aligned c (by simp)
  have hkept : Kept h.mem (set h.mem c.addr .free 1) (others ptr (left ++ [c] ++ right))
      (left ++ [{ c with free := true }] ++ right) := by
    intro d hd hf
    obtain ⟨hd, hdp⟩ := mem_others.1 hd
    have hdc : d ≠ c := fun heq => hdp (heq ▸ hptr)
    have hbeside : d ∈ left ∨ d ∈ right := by simpa [hdc] using hd
    refine ⟨by rcases hbeside with h | h <;> simp [h], fun x hx hx' => ?_⟩
    exact hh.layout.payload_eq (c := c) (by simp) (fun y hy => set_of_not_mem hy) hd hx hx'
  obtain ⟨hstored, hkept'⟩ := stored_coalesce [] chunkScanLimit hmarked hlayout hmarked
  have hmerged : Layout h.blocks (mergePass chunkScanLimit (left ++ [{ c with free := true }] ++ right)) :=
    (show Layout h.blocks ([] ++ (left ++ [{ c with free := true }] ++ right)) from hlayout).mergePass
  rw [freeNolock, if_neg hne, haddr, mark_append hh.stored.links.nodup hptr]
  exact ⟨⟨hstored, hmerged⟩, hkept.trans hkept'⟩

/-- **`free_nolock`** keeps the other chunks that are handed out. -/
theorem freeNolock_spec (hh : Holds h cs) (hc : c ∈ cs) (hptr : c.payload = ptr) :
    ∃ cs', Holds (freeNolock h ptr) cs' ∧ Kept h.mem (freeNolock h ptr).mem (others ptr cs) cs' :=
  ⟨_, freeNolock_pass hh hc hptr⟩

/-! ## The public functions -/

/-- Writing to the payload of a chunk. -/
lemma write_spec (hh : Holds h cs) (hc : c ∈ cs) {m : ℕ → UInt8}
    (hm : ∀ x, x < c.payload ∨ c.finish ≤ x → m x = h.mem x) :
    Holds { h with mem := m } cs ∧ Kept h.mem m (others c.payload cs) cs := by
  obtain ⟨hstored, hother⟩ := hh.stored.write_payload hh.layout hc hm
  refine ⟨⟨hstored, hh.layout⟩, fun d hd _ => ?_⟩
  obtain ⟨hd, hdp⟩ := mem_others.1 hd
  refine ⟨hd, fun x hx hx' => hother d hd (fun heq => hdp (by rw [heq])) x ?_ hx'⟩
  rw [Chunk.payload] at hx
  omega

/-- The chunks that were handed out before are others than the one that is given now. -/
lemma Given.subset_others (hg : Given cs cs' size ptr c) {m m' : ℕ → UInt8}
    (hk : Kept m m' cs cs') : Kept m m' cs (others ptr cs') := by
  intro d hd hf
  obtain ⟨hd', hbytes⟩ := hk d hd hf
  refine ⟨mem_others.2 ⟨hd', fun heq => hg.new d hd hf ?_⟩, hbytes⟩
  have hp := hg.payload
  simp only [Chunk.payload] at heq hp
  omega

/-- A product of sizes overflows when dividing it does not give a factor back. -/
lemma overflow_iff {a b : ℕ} :
    (a ≠ 0 ∧ a * b % 2 ^ 64 / a ≠ b) ↔ 2 ^ 64 ≤ a * b := by
  constructor
  · rintro ⟨ha, hdiv⟩
    by_contra hlt
    rw [Nat.mod_eq_of_lt (by omega), Nat.mul_div_cancel_left _ (by omega)] at hdiv
    exact hdiv rfl
  · intro hle
    have ha : a ≠ 0 := by
      rintro rfl
      simp at hle
    refine ⟨ha, fun hdiv => ?_⟩
    have hmul : a * b ≤ a * b % 2 ^ 64 := by
      calc a * b = a * (a * b % 2 ^ 64 / a) := by rw [hdiv]
        _ ≤ a * b % 2 ^ 64 := Nat.mul_div_le _ _
    have := Nat.mod_lt (a * b) (show 0 < 2 ^ 64 by decide)
    omega

/-- **`calloc`** is `malloc` of the product, with the payload cleared, or `NULL`. -/
theorem calloc_spec {nmemb : ℕ} (hh : Holds h cs)
    (hreq : nmemb * size < 2 ^ 64 → nmemb * size + 48 ≤ 2 ^ 64 ∧ ¬InitFails h ∧
      ¬CutsChain h (nmemb * size)) :
    ∃ p h' cs', calloc h nmemb size = some (p, h') ∧ Holds h' cs' ∧ Kept h.mem h'.mem cs cs' ∧
      (p = 0 ∨ (∃ c, Given cs cs' (nmemb * size) p c) ∧
        ∀ i < nmemb * size, h'.mem (p + i) = 0) := by
  unfold calloc
  by_cases hover : 2 ^ 64 ≤ nmemb * size
  · simp only [if_pos (overflow_iff.2 hover)]
    exact ⟨0, h, cs, rfl, hh, Kept.refl, Or.inl rfl⟩
  · simp only [if_neg ((overflow_iff).not.mpr hover)]
    rw [Nat.mod_eq_of_lt (not_le.mp hover)]
    obtain ⟨hsmall, hinit, hcut⟩ := hreq (not_le.mp hover)
    obtain ⟨p, h', cs', hcall, hh', hkept, hp⟩ := mallocNolock_spec hh hsmall hinit hcut
    rw [hcall]
    by_cases hnull : p = 0
    · simp only [if_pos hnull]
      exact ⟨0, h', cs', rfl, hh', hkept, Or.inl rfl⟩
    · obtain ⟨c, hg⟩ := hp.resolve_left hnull
      simp only [if_neg hnull]
      have hfin : c.finish = p + c.size := by rw [← hg.payload, Chunk.finish, Chunk.payload]
      have hroom := hg.size
      have hframe : ∀ x, x < c.payload ∨ c.finish ≤ x →
          store h'.mem p (List.replicate (nmemb * size) 0) x = h'.mem x := by
        intro x hx
        rw [hg.payload, hfin] at hx
        exact store_of_not_mem (by rw [List.length_replicate]; omega)
      obtain ⟨hh'', hkept'⟩ := write_spec hh' hg.mem hframe
      rw [hg.payload] at hkept'
      refine ⟨p, _, cs', rfl, hh'', (hg.subset_others hkept).trans hkept',
        Or.inr ⟨⟨c, hg⟩, fun i hi => ?_⟩⟩
      show store h'.mem p (List.replicate (nmemb * size) 0) (p + i) = 0
      rw [store_of_mem (by simpa using hi), List.getElem_replicate]

/-- **`realloc`** of a chunk that is handed out returns `NULL` and keeps everything, or returns a
chunk with room for the request that begins with the bytes of the old one. -/
theorem realloc_spec (hh : Holds h cs) (hc : c ∈ cs) (hf : c.free = false)
    (hptr : c.payload = ptr) (hpos : size ≠ 0)
    (hreq : c.size < size → size + 48 ≤ 2 ^ 64 ∧ ¬InitFails h ∧ ¬CutsChain h size) :
    ∃ p h' cs', realloc h ptr size = some (p, h') ∧ Holds h' cs' ∧
      Kept h.mem h'.mem (others ptr cs) cs' ∧
      ((p = 0 ∧ Kept h.mem h'.mem cs cs') ∨
        (∃ d, Given (others ptr cs) cs' size p d) ∧
          ∀ i < min c.size size, h'.mem (p + i) = h.mem (ptr + i)) := by
  have hne : ptr ≠ 0 := by
    rw [← hptr, Chunk.payload, sizeofChunk]
    omega
  have haddr : ptr - sizeofChunk = c.addr := by
    rw [← hptr, Chunk.payload]
    omega
  have hold := hh.stored.size c hc
  unfold realloc
  simp only [if_neg hne, if_neg hpos, haddr, hold]
  by_cases hfits : size ≤ c.size
  · rw [if_pos hfits]
    refine ⟨ptr, h, cs, rfl, hh, Kept.refl.others, Or.inr ⟨⟨c, hc, hf, hptr, hfits, ?_⟩, ?_⟩⟩
    · intro d hd _ heq
      refine (mem_others.1 hd).2 ?_
      rw [Chunk.payload, heq, ← hptr, Chunk.payload]
    · intro i _
      rfl
  · rw [if_neg hfits]
    obtain ⟨hsmall, hinit, hcut⟩ := hreq (not_le.mp hfits)
    obtain ⟨p, h₁, cs₁, hcall, hh₁, hkept₁, hp⟩ := mallocNolock_spec hh hsmall hinit hcut
    rw [hcall]
    by_cases hnull : p = 0
    · simp only [if_pos hnull]
      exact ⟨0, h₁, cs₁, rfl, hh₁, hkept₁.others, Or.inl ⟨rfl, hkept₁⟩⟩
    · obtain ⟨u, hg⟩ := hp.resolve_left hnull
      obtain ⟨hc₁, hbytes⟩ := hkept₁ c hc hf
      have hother := hg.subset_others hkept₁
      simp only [if_neg hnull, hh₁.stored.size c hc₁]
      have hfin : u.finish = p + u.size := by rw [← hg.payload, Chunk.finish, Chunk.payload]
      have hroom := hg.size
      -- the copy ends within the new payload, since the old one was too small
      have hframe : ∀ x, x < u.payload ∨ u.finish ≤ x →
          store h₁.mem p (load h₁.mem ptr c.size) x = h₁.mem x := by
        intro x hx
        rw [hg.payload, hfin] at hx
        exact store_of_not_mem (by rw [length_load]; omega)
      obtain ⟨hh₂, hkept₂⟩ := write_spec hh₁ hg.mem hframe
      rw [hg.payload] at hkept₂
      obtain ⟨cs₃, hh₃, hkept₃⟩ := freeNolock_spec hh₂ hc₁ hptr
      have hup : u.payload ≠ ptr := by
        intro heq
        refine hg.new c hc hf ?_
        rw [← hptr] at heq
        simp only [Chunk.payload] at heq
        omega
      obtain ⟨hu₃, hubytes⟩ := hkept₃ u (mem_others.2 ⟨hg.mem, hup⟩) hg.inUse
      refine ⟨p, _, cs₃, rfl, hh₃, ?_, Or.inr ⟨⟨u, hu₃, hg.inUse, hg.payload, hg.size, ?_⟩, ?_⟩⟩
      · intro d hd hdf
        obtain ⟨hd, hdp⟩ := mem_others.1 hd
        obtain ⟨hd₁, hb₁⟩ := hother d hd hdf
        obtain ⟨hd₂, hb₂⟩ := hkept₂ d hd₁ hdf
        obtain ⟨hd₃, hb₃⟩ := hkept₃ d (mem_others.2 ⟨hd₂, hdp⟩) hdf
        exact ⟨hd₃, fun x hx hx' =>
          (hb₃ x hx hx').trans ((hb₂ x hx hx').trans (hb₁ x hx hx'))⟩
      · exact fun d hd hdf => hg.new d (mem_others.1 hd).1 hdf
      · intro i hi
        have hin : i < c.size := by omega
        have hlast := hubytes (p + i) (by rw [hg.payload]; omega) (by rw [hfin]; omega)
        have hcopy : store h₁.mem p (load h₁.mem ptr c.size) (p + i) = h₁.mem (ptr + i) := by
          rw [store_of_mem (by rw [length_load]; exact hin)]
          exact Option.some_inj.mp ((List.getElem?_eq_getElem _).symm.trans (getElem?_load hin))
        have hfirst := hbytes (ptr + i) (by rw [hptr]; omega) (by
          rw [Chunk.payload] at hptr
          rw [Chunk.finish]
          omega)
        exact hlast.trans (hcopy.trans hfirst)

/-- Rounding up to a power of two, where it does not carry out. -/
lemma alignUp_spec {raw k : ℕ} (hk : k ≤ 63) (hlt : raw + sizeofChunk + 2 ^ k < 2 ^ 64) :
    2 ^ k ∣ alignUp raw (2 ^ k) ∧ raw + sizeofChunk ≤ alignUp raw (2 ^ k) ∧
      alignUp raw (2 ^ k) < raw + sizeofChunk + 2 ^ k := by
  have hpos : 0 < 2 ^ k := Nat.two_pow_pos k
  have hmod : (raw + sizeofChunk + 2 ^ k - 1) % 2 ^ 64 = raw + sizeofChunk + 2 ^ k - 1 :=
    Nat.mod_eq_of_lt (by omega)
  rw [alignUp, hmod, land_mask (by omega) (by omega)]
  generalize hx : raw + sizeofChunk + 2 ^ k - 1 = x
  have hdiv := Nat.div_add_mod x (2 ^ k)
  have hrem := Nat.mod_lt x hpos
  rw [Nat.mul_comm] at hdiv
  exact ⟨Nat.dvd_mul_left _ _, by omega, by omega⟩

/-- Carving the slack off a chunk that was just given. -/
lemma carve_spec (hh : Holds h cs) (hc : c ∈ cs) (hn : n + sizeofChunk ≤ c.size) (hdvd : 16 ∣ n) :
    ∃ cs', Holds { h with mem := carve h.mem c.addr (c.addr + sizeofChunk + n) } cs' ∧
      Kept h.mem (carve h.mem c.addr (c.addr + sizeofChunk + n)) (others c.payload cs) cs' ∧
      Given (others c.payload cs) cs' (c.size - n - sizeofChunk)
        (c.addr + sizeofChunk + n + sizeofChunk)
        ⟨c.addr + sizeofChunk + n, c.size - n - sizeofChunk, false⟩ := by
  obtain ⟨left, right, rfl⟩ := List.append_of_mem hc
  rw [← List.singleton_append, ← List.append_assoc] at hh ⊢
  have hbeside : ∀ d ∈ others c.payload (left ++ [c] ++ right), d ∈ left ++ right := by
    intro d hd
    obtain ⟨hd, hdp⟩ := mem_others.1 hd
    have hdc : d ≠ c := fun heq => hdp (by rw [heq])
    simpa [hdc] using hd
  have hcut := recut_split hn true false
  have haligned := hh.layout.aligned c (by simp)
  refine ⟨_, ⟨stored_carve hh.stored hh.layout hn, hh.layout.recut hcut fun u hu => ?_⟩, ?_, ?_⟩
  · rw [sizeofChunk] at hn hu
    simp only [List.mem_cons, List.not_mem_nil, or_false] at hu
    rcases hu with rfl | rfl
    · exact ⟨haligned.1, hdvd⟩
    · constructor
      · show 16 ∣ c.addr + 32 + n
        omega
      · show 16 ∣ c.size - n - 32
        omega
  · intro d hd _
    have hd' := hbeside d hd
    refine ⟨by rcases List.mem_append.mp hd' with h | h <;> simp [h], fun x hx hx' => ?_⟩
    refine hh.layout.eq_beside hcut (fun y hy => ?_) hd' ?_ hx'
    · simp only [List.mem_cons, List.not_mem_nil, or_false, forall_eq_or_imp, forall_eq] at hy
      exact carve_frame hy.1 hy.2
    · rw [Chunk.payload] at hx
      omega
  · refine ⟨by simp, rfl, rfl, le_rfl, fun d hd _ heq => ?_⟩
    have hapart := Chunk.apart_of_disjoint
      (hh.layout.tiles.disjoint_of_mem_beside (List.mem_singleton_self c) (hbeside d hd))
    simp only [Chunk.finish, sizeofChunk] at hapart heq hn
    omega

/-- **`aligned_alloc`** returns `NULL` or the payload of a chunk with room for the request at a
multiple of the alignment, and keeps the chunks that are handed out. -/
theorem alignedAlloc_spec {k : ℕ} (hh : Holds h cs) (hbig : 8 < 2 ^ k)
    (hsize : size + 2 ^ k + sizeofChunk + 48 ≤ 2 ^ 64) (hinit : ¬InitFails h)
    (hcut : ¬CutsChain h (size + 2 ^ k + sizeofChunk)) :
    ∃ p h' cs', alignedAlloc h (2 ^ k) size = some (p, h') ∧ Holds h' cs' ∧
      Kept h.mem h'.mem cs cs' ∧ (p = 0 ∨ 2 ^ k ∣ p ∧ ∃ c, Given cs cs' size p c) := by
  have hsum : sizeAdd (sizeAdd size (2 ^ k)) sizeofChunk = size + 2 ^ k + sizeofChunk := by
    have hinner : sizeAdd size (2 ^ k) = size + 2 ^ k := sizeAdd_of_lt (by omega)
    rw [hinner, sizeAdd_of_lt (by omega)]
  unfold alignedAlloc
  rw [if_neg (by omega), hsum]
  obtain ⟨p, h₁, cs₁, hcall, hh₁, hkept, hp⟩ := mallocNolock_spec hh hsize hinit hcut
  rw [hcall]
  by_cases hnull : p = 0
  · simp only [if_pos hnull]
    exact ⟨0, h₁, cs₁, rfl, hh₁, hkept, Or.inl rfl⟩
  · obtain ⟨c, hg⟩ := hp.resolve_left hnull
    simp only [if_neg hnull]
    have hpay := hg.payload
    have hroom := hg.size
    have hbounds := hh₁.layout.bounds hg.mem
    have haligned := hh₁.layout.aligned c hg.mem
    have hk : k ≤ 63 := by
      by_contra hk
      have := Nat.pow_le_pow_right (show 0 < 2 by decide) (show 64 ≤ k by omega)
      omega
    have h16 : 16 ∣ 2 ^ k := by
      have hk4 : 4 ≤ k := by
        by_contra hk4
        have := Nat.pow_le_pow_right (show 0 < 2 by decide) (show k ≤ 3 by omega)
        omega
      exact pow_dvd_pow 2 hk4
    rw [Chunk.payload] at hpay
    obtain ⟨hdvd, hlo, hhi⟩ := alignUp_spec hk (show p + sizeofChunk + 2 ^ k < 2 ^ 64 by omega)
    have hdvd16 := h16.trans hdvd
    generalize alignUp p (2 ^ k) = aligned at hdvd hlo hhi hdvd16
    -- the slack in front of the new header, without the header of the old chunk
    obtain ⟨n, hn⟩ : ∃ n, aligned = c.addr + sizeofChunk + n + sizeofChunk := by
      exact ⟨aligned - (c.addr + sizeofChunk + sizeofChunk), by omega⟩
    have hslack : n + sizeofChunk ≤ c.size := by omega
    have hndvd : 16 ∣ n := by
      simp only [sizeofChunk] at hn
      omega
    obtain ⟨cs', hh', hkept', hg'⟩ := carve_spec hh₁ hg.mem hslack hndvd
    have hother := hg.subset_others hkept
    have horig : p - sizeofChunk = c.addr := by omega
    have hnewc : sizeSub aligned sizeofChunk = c.addr + sizeofChunk + n := by
      rw [sizeSub_of_le (by omega) (by omega)]
      omega
    rw [hg.payload] at hkept' hg'
    rw [horig, hnewc]
    refine ⟨aligned, _, cs', rfl, hh', hother.trans hkept', Or.inr ⟨hdvd, _, hg'.mem, rfl, ?_, ?_,
      fun d hd hf => hg'.new d (hother d hd hf).1 hf⟩⟩
    · exact hn.symm
    · show size ≤ c.size - n - sizeofChunk
      omega

end

end Asteros.Malloc
