import Asteros.Lib.Transition
import Asteros.Malloc.AllocatorSpec

set_option autoImplicit false

/-!
# The heap invariant

A process calls the allocator and writes to the blocks it was given, in any order, and `mmap`
answers in any way. The pointers that are live are counted beside the heap: those that a call has
returned and no call has freed since. As long as no call meets one of the two states in which the
allocator goes wrong, the chunks tile the blocks from `mmap`, each live pointer is the payload of
one chunk, and no call touches the blocks it is not given.

## Main definitions

* `Call` — a call of the program, or a write of it to one of its blocks.
* `Allowed` — the calls a program may make.
* `SafeCall` — the call does not meet `InitFails` or `CutsChain`.
* `HeapInv`, `Preserves` — the invariant, and what a call leaves alone.

## Main results

* `heapInvariant` — both hold along every run of allowed and safe calls, and every call returns.
-/

namespace Asteros.Malloc

open Tiling Transition

/-- A live allocation. -/
structure Live where
  /-- The pointer that was returned. -/
  ptr : ℕ
  /-- The size that was asked for. -/
  size : ℕ
  /-- The alignment that was asked for, and at least 16. -/
  align : ℕ
  deriving DecidableEq

/-- The heap and the live allocations. -/
structure State where
  /-- The heap. -/
  heap : Heap
  /-- The live allocations. -/
  live : List Live

/-- A process before its first allocation. -/
def start (mem : ℕ → UInt8) (answers : List (Option ℕ)) : State where
  heap := { mem := mem, gHead := 0, blocks := [], answers := answers }
  live := []

/-- What a process does. -/
inductive Call where
  /-- `malloc(size)`. -/
  | malloc (size : ℕ)
  /-- `calloc(nmemb, size)`. -/
  | calloc (nmemb size : ℕ)
  /-- `realloc(ptr, size)`. -/
  | realloc (ptr size : ℕ)
  /-- `aligned_alloc(alignment, size)`. -/
  | alignedAlloc (alignment size : ℕ)
  /-- `free(ptr)`. -/
  | free (ptr : ℕ)
  /-- The program stores bytes at an address. -/
  | write (addr : ℕ) (bytes : List UInt8)

namespace Call

/-- The function on the heap: the pointer it returns, 0 if it returns none, and the heap. -/
def run (h : Heap) : Call → Option (ℕ × Heap)
  | malloc size => mallocNolock h size
  | calloc nmemb size => Malloc.calloc h nmemb size
  | realloc ptr size => Malloc.realloc h ptr size
  | alignedAlloc alignment size => Malloc.alignedAlloc h alignment size
  | free ptr => some (0, freeNolock h ptr)
  | write addr bytes => some (0, { h with mem := ByteMemory.store h.mem addr bytes })

/-- The block that a call may end the life of. -/
def passed : Call → ℕ
  | realloc ptr _ | free ptr => ptr
  | malloc _ | calloc _ _ | alignedAlloc _ _ | write _ _ => 0

/-- The allocation that a call makes when it returns `p`. -/
def made (p : ℕ) : Call → Live
  | malloc size | realloc _ size => ⟨p, size, 16⟩
  | calloc nmemb size => ⟨p, nmemb * size, 16⟩
  | alignedAlloc alignment size => ⟨p, size, max alignment 16⟩
  | free _ | write _ _ => ⟨p, 0, 16⟩

/-- The passed block stays live when `realloc` finds no room. -/
def givesUp (p : ℕ) : Call → Prop
  | realloc _ size => p = 0 ∧ size ≠ 0
  | _ => False

instance (p : ℕ) (c : Call) : Decidable (c.givesUp p) := by
  cases c <;> unfold givesUp <;> infer_instance

/-- The live allocations after a call that returns `p`. -/
def live (p : ℕ) (bs : List Live) (c : Call) : List Live :=
  let bs := if c.givesUp p then bs else bs.filter fun b => b.ptr ≠ c.passed
  if p = 0 then bs else c.made p :: bs

end Call

/-- A call, if it returns. -/
def step (s : State) (c : Call) : Option State :=
  (c.run s.heap).map fun r => ⟨r.2, c.live r.1 s.live⟩

/-- `ptr` is `NULL` or live. -/
def LiveOrNull (s : State) (ptr : ℕ) : Prop := ptr = 0 ∨ ∃ b ∈ s.live, b.ptr = ptr

/-- The calls a program may make: rounding up a request and adding a header does not wrap, pointers
are live or `NULL`, alignments are powers of two, and writes stay in a live block. -/
def Allowed (s : State) : Call → Prop
  | .malloc size => size + 48 ≤ 2 ^ 64
  | .calloc nmemb size => nmemb * size < 2 ^ 64 → nmemb * size + 48 ≤ 2 ^ 64
  | .realloc ptr size => LiveOrNull s ptr ∧ size + 48 ≤ 2 ^ 64
  | .alignedAlloc alignment size =>
    (∃ k, alignment = 2 ^ k) ∧ size + alignment + sizeofChunk + 48 ≤ 2 ^ 64
  | .free ptr => LiveOrNull s ptr
  | .write addr bytes => ∃ b ∈ s.live, b.ptr ≤ addr ∧ addr + bytes.length ≤ b.ptr + b.size

/-- The size that a call passes to `malloc_nolock`, if it gets there. -/
def Call.request (h : Heap) : Call → Option ℕ
  | .malloc size => some size
  | .calloc nmemb size => if nmemb * size < 2 ^ 64 then some (nmemb * size) else none
  | .realloc ptr size =>
    if ptr = 0 then some size
    else if size ≠ 0 ∧ get h.mem (ptr - sizeofChunk) .size < size then some size
    else none
  | .alignedAlloc alignment size =>
    if alignment ≤ 8 then some size else some (size + alignment + sizeofChunk)
  | .free _ | .write _ _ => none

/-- The call does not meet a state in which `malloc_nolock` goes wrong. -/
def SafeCall (s : State) (c : Call) : Prop :=
  ∀ size, c.request s.heap = some size → ¬InitFails s.heap ∧ ¬CutsChain s.heap size

/-- **The heap invariant.** -/
structure HeapInv (s : State) (cs : List Chunk) : Prop where
  /-- The list from `g_head` holds the chunks, and ends. -/
  stored : Stored s.heap.mem s.heap.gHead cs
  /-- It has no cycle. -/
  acyclic : (cs.map Chunk.addr).Nodup
  /-- The chunks are disjoint and tile the blocks from `mmap`. -/
  tiles : Tiles Chunk.span (region s.heap.blocks) cs
  /-- No pointer is live twice. -/
  distinct : (s.live.map Live.ptr).Nodup
  /-- A live pointer is the payload of one chunk that is not free. -/
  chunk : ∀ b ∈ s.live, ∃! c, c ∈ cs ∧ c.free = false ∧ c.payload = b.ptr
  /-- That chunk has room for what was asked for. -/
  room : ∀ b ∈ s.live, ∀ c ∈ cs, c.payload = b.ptr → b.size ≤ c.size
  /-- A live pointer is aligned as was asked for. -/
  aligned : ∀ b ∈ s.live, 16 ∣ b.ptr ∧ b.align ∣ b.ptr

/-- The size of the payload at a pointer, as its header has it. -/
def payloadSize (h : Heap) (ptr : ℕ) : ℕ := get h.mem (ptr - sizeofChunk) .size

/-- The call is given the block: it frees or resizes it, or writes to it. -/
def Call.Given (c : Call) (b : Live) : Prop :=
  match c with
  | .write addr bytes => b.ptr ≤ addr ∧ addr + bytes.length ≤ b.ptr + b.size
  | _ => b.ptr = c.passed

/-- What a call that returns `p` leaves alone. -/
structure Preserves (s : State) (c : Call) (p : ℕ) (h : Heap) : Prop where
  /-- The payloads of the live blocks that the call is not given. -/
  bytes : ∀ b ∈ s.live, ¬c.Given b → ∀ i < payloadSize s.heap b.ptr,
    h.mem (b.ptr + i) = s.heap.mem (b.ptr + i)
  /-- The first bytes of a block that is resized. -/
  moved : ∀ b ∈ s.live, ∀ size, c = .realloc b.ptr size → p ≠ 0 → ∀ i < min b.size size,
    h.mem (p + i) = s.heap.mem (b.ptr + i)
  /-- A block that could not be resized. -/
  stays : ∀ b ∈ s.live, c.givesUp p → c.passed = b.ptr → ∀ i < payloadSize s.heap b.ptr,
    h.mem (b.ptr + i) = s.heap.mem (b.ptr + i)

/-! ## Live allocations and chunks -/

/-- Each live allocation is the payload of a chunk that is handed out, and no two are the same. -/
structure LiveIn (cs : List Chunk) (bs : List Live) : Prop where
  /-- The chunk of an allocation. -/
  chunk : ∀ b ∈ bs, ∃ c ∈ cs, c.free = false ∧ c.payload = b.ptr ∧ b.size ≤ c.size ∧ b.align ∣ b.ptr
  /-- No pointer is live twice. -/
  distinct : (bs.map Live.ptr).Nodup

section

variable {s : State} {h h' : Heap} {cs cs' : List Chunk} {bs : List Live} {c : Chunk} {b : Live}
  {m m' : ℕ → UInt8} {p ptr size align : ℕ} {call : Call}

/-- Allocations stay live when their chunks are kept. -/
lemma LiveIn.kept (hl : LiveIn cs bs) (hk : Kept m m' cs cs') : LiveIn cs' bs where
  chunk b hb := by
    obtain ⟨c, hc, hf, hrest⟩ := hl.chunk b hb
    exact ⟨c, (hk c hc hf).1, hf, hrest⟩
  distinct := hl.distinct

/-- The allocations other than the one a call is given are in the other chunks. -/
lemma LiveIn.others (hl : LiveIn cs bs) (ptr : ℕ) :
    LiveIn (others ptr cs) (bs.filter fun b => b.ptr ≠ ptr) where
  chunk b hb := by
    obtain ⟨hb, hne⟩ := List.mem_filter.mp hb
    obtain ⟨c, hc, hf, hpay, hrest⟩ := hl.chunk b hb
    refine ⟨c, mem_others.mpr ⟨hc, ?_⟩, hf, hpay, hrest⟩
    rw [hpay]
    simpa using hne
  distinct := hl.distinct.sublist (List.filter_sublist.map _)

/-- A new allocation. -/
lemma LiveIn.cons (hl : LiveIn cs bs) (hk : Kept m m' cs cs') (hg : Given cs cs' size p c)
    (halign : align ∣ p) : LiveIn cs' (⟨p, size, align⟩ :: bs) where
  chunk b hb := by
    rcases List.mem_cons.mp hb with rfl | hb
    · exact ⟨c, hg.mem, hg.inUse, hg.payload, hg.size, halign⟩
    · exact (hl.kept hk).chunk b hb
  distinct := by
    refine List.nodup_cons.mpr ⟨fun hmem => ?_, hl.distinct⟩
    obtain ⟨b, hb, hbp⟩ := List.mem_map.mp hmem
    obtain ⟨d, hd, hf, hpay, -⟩ := hl.chunk b hb
    refine hg.new d hd hf ?_
    have hcp : c.payload = b.ptr := hg.payload.trans hbp.symm
    rw [← hpay, Chunk.payload, Chunk.payload] at hcp
    exact (Nat.add_right_cancel hcp).symm

/-- Payloads are aligned to 16 bytes. -/
lemma Holds.payload_dvd (hh : Holds h cs) (hc : c ∈ cs) : 16 ∣ c.payload := by
  have haddr := (hh.layout.aligned c hc).1
  rw [Chunk.payload, sizeofChunk]
  omega

/-- The header in front of the payload of a chunk. -/
lemma Holds.payloadSize_eq (hh : Holds h cs) (hc : c ∈ cs) (hp : c.payload = ptr) :
    payloadSize h ptr = c.size := by
  have haddr : ptr - sizeofChunk = c.addr := by
    rw [← hp, Chunk.payload]
    omega
  rw [payloadSize, haddr]
  exact hh.stored.size c hc

/-- The bytes of a live block whose chunk is kept. -/
lemma LiveIn.bytes (hl : LiveIn cs bs) (hh : Holds h cs) (hb : b ∈ bs) {ds : List Chunk}
    (hds : ∀ c ∈ cs, c.payload = b.ptr → c ∈ ds) (hk : Kept h.mem m ds cs') :
    ∀ i < payloadSize h b.ptr, m (b.ptr + i) = h.mem (b.ptr + i) := by
  obtain ⟨c, hc, hf, hpay, -⟩ := hl.chunk b hb
  intro i hi
  rw [hh.payloadSize_eq hc hpay] at hi
  refine (hk c (hds c hc hpay) hf).2 (b.ptr + i) (by omega) ?_
  rw [Chunk.payload] at hpay
  rw [Chunk.finish]
  omega

/-- What the specification of a call says about the heap, the allocations and the chunks. -/
structure Returns (s : State) (cs : List Chunk) (call : Call) (p : ℕ) (h : Heap)
    (cs' : List Chunk) : Prop where
  /-- The call returns. -/
  run : call.run s.heap = some (p, h)
  /-- The heap holds chunks. -/
  holds : Holds h cs'
  /-- The chunks that the call is not given are kept. -/
  kept : Kept s.heap.mem h.mem (others call.passed cs) cs'
  /-- When a block could not be resized, all are. -/
  stays : call.givesUp p → Kept s.heap.mem h.mem cs cs'
  /-- A pointer that is returned is a new allocation. -/
  given : p ≠ 0 → (∃ c, Given (others call.passed cs) cs' (call.made p).size p c) ∧
    (call.made p).align ∣ p
  /-- A block that is resized keeps its first bytes. -/
  moved : ∀ b ∈ s.live, ∀ size, call = .realloc b.ptr size → p ≠ 0 → ∀ i < min b.size size,
    h.mem (p + i) = s.heap.mem (b.ptr + i)

/-- The allocations after a call. -/
lemma Returns.liveIn (hr : Returns s cs call p h cs') (hl : LiveIn cs s.live) :
    LiveIn cs' (call.live p s.live) := by
  have hmade : call.made p = ⟨p, (call.made p).size, (call.made p).align⟩ := by cases call <;> rfl
  unfold Call.live
  by_cases hup : call.givesUp p
  · have hnull : p = 0 := by
      cases call <;> simp_all [Call.givesUp]
    simp only [if_pos hup, if_pos hnull]
    exact hl.kept (hr.stays hup)
  · simp only [if_neg hup]
    by_cases hnull : p = 0
    · rw [if_pos hnull]
      exact (hl.others call.passed).kept hr.kept
    · rw [if_neg hnull]
      obtain ⟨⟨c, hg⟩, halign⟩ := hr.given hnull
      have hcons := (hl.others call.passed).cons hr.kept hg halign
      rwa [← hmade] at hcons

/-- What a call other than a write leaves alone. -/
lemma Returns.preserves (hr : Returns s cs call p h cs') (hh : Holds s.heap cs)
    (hl : LiveIn cs s.live) (hcall : ∀ b, call.Given b ↔ b.ptr = call.passed) :
    Preserves s call p h where
  bytes b hb hgiven := by
    refine hl.bytes hh hb (fun c hc hpay => mem_others.mpr ⟨hc, ?_⟩) hr.kept
    rw [hpay]
    exact fun heq => hgiven ((hcall b).mpr heq)
  moved := hr.moved
  stays b hb hup _ := hl.bytes hh hb (fun _ hc _ => hc) (hr.stays hup)

/-! ## The calls -/

/-- What is new among all chunks is new among the others. -/
lemma Given.others (hg : Given cs cs' size p c) (ptr : ℕ) : Given (others ptr cs) cs' size p c :=
  ⟨hg.mem, hg.inUse, hg.payload, hg.size, fun d hd hf => hg.new d (mem_others.mp hd).1 hf⟩

/-- Live pointers are not `NULL`. -/
lemma LiveIn.ptr_ne (hl : LiveIn cs bs) (hb : b ∈ bs) : b.ptr ≠ 0 := by
  obtain ⟨c, -, -, hpay, -⟩ := hl.chunk b hb
  rw [← hpay, Chunk.payload, sizeofChunk]
  omega

/-- A call that is given no block resizes none. -/
lemma LiveIn.not_moved (hl : LiveIn cs s.live) (hpassed : call.passed = 0) :
    ∀ b ∈ s.live, ∀ size, call = .realloc b.ptr size → p ≠ 0 → ∀ i < min b.size size,
      h.mem (p + i) = s.heap.mem (b.ptr + i) := by
  rintro b hb size rfl
  exact absurd hpassed (hl.ptr_ne hb)

/-- A call that only asks `malloc_nolock` for a size. -/
lemma returns_of_malloc (hh : Holds s.heap cs) (hl : LiveIn cs s.live)
    (hsize : size + 48 ≤ 2 ^ 64) (hsafe : ¬InitFails s.heap ∧ ¬CutsChain s.heap size)
    (hrun : call.run s.heap = mallocNolock s.heap size) (hpassed : call.passed = 0)
    (hmade : ∀ p, call.made p = ⟨p, size, 16⟩) : ∃ p h cs', Returns s cs call p h cs' := by
  obtain ⟨p, h, cs', hcall, hh', hkept, hp⟩ := mallocNolock_spec hh hsize hsafe.1 hsafe.2
  refine ⟨p, h, cs', hrun.trans hcall, hh', hkept.others, fun _ => hkept, fun hne => ?_,
    hl.not_moved hpassed⟩
  obtain ⟨c, hg⟩ := hp.resolve_left hne
  rw [hmade]
  refine ⟨⟨c, hg.others call.passed⟩, ?_⟩
  rw [← hg.payload]
  exact hh'.payload_dvd hg.mem

/-- `calloc`. -/
lemma returns_calloc {nmemb : ℕ} (hh : Holds s.heap cs) (hl : LiveIn cs s.live)
    (hallowed : Allowed s (.calloc nmemb size)) (hsafe : SafeCall s (.calloc nmemb size)) :
    ∃ p h cs', Returns s cs (.calloc nmemb size) p h cs' := by
  have hreq : nmemb * size < 2 ^ 64 → nmemb * size + 48 ≤ 2 ^ 64 ∧ ¬InitFails s.heap ∧
      ¬CutsChain s.heap (nmemb * size) := by
    intro hlt
    exact ⟨hallowed hlt, hsafe _ (if_pos hlt)⟩
  obtain ⟨p, h, cs', hcall, hh', hkept, hp⟩ := calloc_spec hh hreq
  refine ⟨p, h, cs', hcall, hh', hkept.others, fun _ => hkept, fun hne => ?_, hl.not_moved rfl⟩
  obtain ⟨⟨c, hg⟩, -⟩ := hp.resolve_left hne
  refine ⟨⟨c, hg.others _⟩, ?_⟩
  show 16 ∣ p
  rw [← hg.payload]
  exact hh'.payload_dvd hg.mem

/-- `aligned_alloc`. -/
lemma returns_alignedAlloc {alignment : ℕ} (hh : Holds s.heap cs) (hl : LiveIn cs s.live)
    (hallowed : Allowed s (.alignedAlloc alignment size))
    (hsafe : SafeCall s (.alignedAlloc alignment size)) :
    ∃ p h cs', Returns s cs (.alignedAlloc alignment size) p h cs' := by
  obtain ⟨⟨k, rfl⟩, hsize⟩ := hallowed
  have hpos := Nat.two_pow_pos k
  by_cases hsmall : 2 ^ k ≤ 8
  · refine returns_of_malloc hh hl (by omega) (hsafe size (if_pos hsmall)) (if_pos hsmall) rfl
      fun p => ?_
    show Live.mk p size (max (2 ^ k) 16) = _
    rw [max_eq_right (by omega)]
  · obtain ⟨hinit, hcut⟩ := hsafe _ (if_neg hsmall)
    obtain ⟨p, h, cs', hcall, hh', hkept, hp⟩ :=
      alignedAlloc_spec hh (not_le.mp hsmall) hsize hinit hcut
    refine ⟨p, h, cs', hcall, hh', hkept.others, fun _ => hkept, fun hne => ?_, hl.not_moved rfl⟩
    obtain ⟨hdvd, c, hg⟩ := hp.resolve_left hne
    refine ⟨⟨c, hg.others _⟩, ?_⟩
    show max (2 ^ k) 16 ∣ p
    rcases max_choice (2 ^ k) 16 with hmax | hmax
    · rw [hmax]
      exact hdvd
    · rw [hmax, ← hg.payload]
      exact hh'.payload_dvd hg.mem

/-- `free`. -/
lemma returns_free (hh : Holds s.heap cs) (hl : LiveIn cs s.live) (hptr : LiveOrNull s ptr)
    (hrun : call.run s.heap = some (0, freeNolock s.heap ptr)) (hpassed : call.passed = ptr)
    (hup : ¬call.givesUp 0) : ∃ p h cs', Returns s cs call p h cs' := by
  rcases hptr with rfl | ⟨b, hb, rfl⟩
  · refine ⟨0, s.heap, cs, hrun, hh, Kept.refl.others, fun _ => Kept.refl,
      fun hne => absurd rfl hne, fun _ _ _ _ hne => absurd rfl hne⟩
  · obtain ⟨c, hc, -, hpay, -⟩ := hl.chunk b hb
    obtain ⟨cs', hh', hkept⟩ := freeNolock_spec hh hc hpay
    rw [← hpassed] at hkept
    refine ⟨0, _, cs', hrun, hh', ?_, fun h => absurd h hup, fun hne => absurd rfl hne,
      fun _ _ _ _ hne => absurd rfl hne⟩
    rw [hpassed] at hkept
    rw [hpassed]
    exact hkept

/-- `realloc`. -/
lemma returns_realloc (hh : Holds s.heap cs) (hl : LiveIn cs s.live)
    (hallowed : Allowed s (.realloc ptr size)) (hsafe : SafeCall s (.realloc ptr size)) :
    ∃ p h cs', Returns s cs (.realloc ptr size) p h cs' := by
  obtain ⟨hptr, hsize⟩ := hallowed
  by_cases hnull : ptr = 0
  · subst hnull
    exact returns_of_malloc hh hl hsize (hsafe size rfl) rfl rfl fun _ => rfl
  by_cases hzero : size = 0
  · subst hzero
    refine returns_free hh hl hptr ?_ rfl (by simp [Call.givesUp])
    simp [Call.run, realloc, hnull]
  · obtain ⟨b, hb, rfl⟩ := hptr.resolve_left hnull
    obtain ⟨c, hc, hf, hpay, hroom, -⟩ := hl.chunk b hb
    have hreq : c.size < size → size + 48 ≤ 2 ^ 64 ∧ ¬InitFails s.heap ∧ ¬CutsChain s.heap size := by
      intro hlt
      refine ⟨hsize, hsafe size ?_⟩
      have hpayload := hh.payloadSize_eq hc hpay
      rw [payloadSize] at hpayload
      rw [Call.request, if_neg hnull, if_pos ⟨hzero, by rw [hpayload]; exact hlt⟩]
    obtain ⟨p, h, cs', hcall, hh', hkept, hp⟩ := realloc_spec hh hc hf hpay hzero hreq
    have hcases : p = 0 → Kept s.heap.mem h.mem cs cs' := by
      rintro rfl
      rcases hp with ⟨-, hall⟩ | ⟨⟨d, hg⟩, -⟩
      · exact hall
      · have hpd := hg.payload
        rw [Chunk.payload, sizeofChunk] at hpd
        omega
    refine ⟨p, h, cs', hcall, hh', hkept, fun hup => hcases hup.1, fun hne => ?_, ?_⟩
    · rcases hp with ⟨hp0, -⟩ | ⟨⟨d, hg⟩, -⟩
      · exact absurd hp0 hne
      · refine ⟨⟨d, hg⟩, ?_⟩
        show 16 ∣ p
        rw [← hg.payload]
        exact hh'.payload_dvd hg.mem
    · intro b' hb' size' heq hne i hi
      obtain ⟨hptr', rfl⟩ : b.ptr = b'.ptr ∧ size = size' := by
        simpa using heq
      have hbb : b'.size = b.size := by
        rw [List.inj_on_of_nodup_map hl.distinct hb' hb hptr'.symm]
      rcases hp with ⟨hp0, -⟩ | ⟨-, hbytes⟩
      · exact absurd hp0 hne
      · rw [← hptr']
        exact hbytes i (by omega)

/-- A write of the program to a live block. -/
lemma write_returns {addr : ℕ} {bytes : List UInt8} (hh : Holds s.heap cs) (hl : LiveIn cs s.live)
    (hb : b ∈ s.live) (hlo : b.ptr ≤ addr) (hhi : addr + bytes.length ≤ b.ptr + b.size) :
    Holds { s.heap with mem := ByteMemory.store s.heap.mem addr bytes } cs ∧
      Preserves s (.write addr bytes) 0
        { s.heap with mem := ByteMemory.store s.heap.mem addr bytes } := by
  obtain ⟨c, hc, -, hpay, hroom, -⟩ := hl.chunk b hb
  have hfin : c.finish = b.ptr + c.size := by rw [← hpay, Chunk.finish, Chunk.payload]
  have hframe : ∀ x, x < c.payload ∨ c.finish ≤ x →
      ByteMemory.store s.heap.mem addr bytes x = s.heap.mem x := by
    intro x hx
    rw [hpay, hfin] at hx
    exact ByteMemory.store_of_not_mem (by omega)
  obtain ⟨hh', hkept⟩ := write_spec hh hc hframe
  refine ⟨hh', fun b' hb' hgiven => ?_, fun _ _ _ heq => ?_, fun _ _ hup => ?_⟩
  rotate_left
  · cases heq
  · cases hup
  refine hl.bytes hh hb' (fun d hd hpd => mem_others.mpr ⟨hd, fun heq => hgiven ?_⟩) hkept
  -- two live blocks with one payload are one block
  have hptr : b'.ptr = b.ptr := by rw [← hpd, heq, hpay]
  rw [List.inj_on_of_nodup_map hl.distinct hb' hb hptr]
  exact ⟨hlo, hhi⟩

/-- **Every allowed and safe call** returns, leaves the other blocks alone and keeps the chunks and
the live allocations together. -/
theorem call_spec (hh : Holds s.heap cs) (hl : LiveIn cs s.live) (hallowed : Allowed s call)
    (hsafe : SafeCall s call) : ∃ p h cs', call.run s.heap = some (p, h) ∧ Holds h cs' ∧
      LiveIn cs' (call.live p s.live) ∧ Preserves s call p h := by
  have hreturns : (∀ b, call.Given b ↔ b.ptr = call.passed) →
      (∃ p h cs', Returns s cs call p h cs') → ∃ p h cs', call.run s.heap = some (p, h) ∧
        Holds h cs' ∧ LiveIn cs' (call.live p s.live) ∧ Preserves s call p h := by
    rintro hgiven ⟨p, h, cs', hr⟩
    exact ⟨p, h, cs', hr.run, hr.holds, hr.liveIn hl, hr.preserves hh hl hgiven⟩
  cases call with
  | malloc size =>
    exact hreturns (fun _ => Iff.rfl)
      (returns_of_malloc hh hl hallowed (hsafe size rfl) rfl rfl fun _ => rfl)
  | calloc nmemb size => exact hreturns (fun _ => Iff.rfl) (returns_calloc hh hl hallowed hsafe)
  | realloc ptr size => exact hreturns (fun _ => Iff.rfl) (returns_realloc hh hl hallowed hsafe)
  | alignedAlloc alignment size =>
    exact hreturns (fun _ => Iff.rfl) (returns_alignedAlloc hh hl hallowed hsafe)
  | free ptr => exact hreturns (fun _ => Iff.rfl) (returns_free hh hl hallowed rfl rfl id)
  | write addr bytes =>
    obtain ⟨b, hb, hlo, hhi⟩ := hallowed
    obtain ⟨hh', hpres⟩ := write_returns hh hl hb hlo hhi
    refine ⟨0, _, cs, rfl, hh', ?_, hpres⟩
    have hall : s.live.filter (fun b => b.ptr ≠ 0) = s.live :=
      List.filter_eq_self.mpr fun b hb => by simpa using hl.ptr_ne hb
    have hlive : (Call.write addr bytes).live 0 s.live = s.live := hall
    rw [hlive]
    exact hl

end

/-! ## Runs -/

/-- The invariant, with the alignment of the chunks that it rests on. -/
lemma heapInv_of_holds {s : State} {cs : List Chunk} (hh : Holds s.heap cs)
    (hl : LiveIn cs s.live) : HeapInv s cs where
  stored := hh.stored
  acyclic := hh.stored.links.nodup
  tiles := hh.layout.tiles
  distinct := hl.distinct
  chunk b hb := by
    obtain ⟨c, hc, hf, hpay, -⟩ := hl.chunk b hb
    refine ⟨c, ⟨hc, hf, hpay⟩, fun d hd => hh.layout.eq_of_addr hd.1 hc ?_⟩
    have heq := hd.2.2.trans hpay.symm
    exact Nat.add_right_cancel heq
  room b hb d hd hpd := by
    obtain ⟨c, hc, hf, hpay, hroom, -⟩ := hl.chunk b hb
    have heq : c = d := hh.layout.eq_of_addr hc hd (Nat.add_right_cancel (hpay.trans hpd.symm))
    rw [← heq]
    exact hroom
  aligned b hb := by
    obtain ⟨c, hc, hf, hpay, hroom, halign⟩ := hl.chunk b hb
    refine ⟨?_, halign⟩
    rw [← hpay]
    exact hh.payload_dvd hc

/-- **The heap invariant.** In every run whose calls are allowed and do not meet one of the two
states in which `malloc_nolock` goes wrong, every call returns and the chunks of the list tile the
blocks, each live pointer being the payload of one of them; and whatever call comes next, it
returns as well and leaves the blocks it is not given alone.

**Proof sketch.** What one call does is its specification, `call_spec`. The run is an induction on
the calls with the chunks and the live allocations as the invariant; what a call leaves alone is
read off the specification at the end of the run. -/
theorem heapInvariant (mem : ℕ → UInt8) (answers : List (Option ℕ)) (calls : List Call)
    (hok : Along step (fun s c => Allowed s c ∧ SafeCall s c) (start mem answers) calls) :
    ∃ s, exec step (start mem answers) calls = some s ∧ (∃ cs, HeapInv s cs) ∧
      ∀ c, Allowed s c → SafeCall s c →
        ∃ p h, c.run s.heap = some (p, h) ∧ Preserves s c p h := by
  have hrun : ∀ s cs, Holds s.heap cs → LiveIn cs s.live →
      Along step (fun s c => Allowed s c ∧ SafeCall s c) s calls →
      ∃ s' cs', exec step s calls = some s' ∧ Holds s'.heap cs' ∧ LiveIn cs' s'.live := by
    clear hok
    induction calls with
    | nil => exact fun s cs hh hl _ => ⟨s, cs, rfl, hh, hl⟩
    | cons c calls ih =>
      intro s cs hh hl hok
      obtain ⟨p, h, cs', hcall, hh', hl', -⟩ := call_spec hh hl hok.1.1 hok.1.2
      have hstep : step s c = some ⟨h, c.live p s.live⟩ := by
        rw [step, hcall]
        rfl
      obtain ⟨s', cs'', hexec, hend⟩ := ih ⟨h, c.live p s.live⟩ cs' hh' hl' (hok.2 _ hstep)
      exact ⟨s', cs'', by rw [exec, hstep]; exact hexec, hend⟩
  have hstart : Holds (start mem answers).heap [] := ⟨stored_nil.mpr rfl, layout_nil⟩
  have hnone : LiveIn [] (start mem answers).live := ⟨by simp [start], by simp [start]⟩
  obtain ⟨s, cs, hexec, hh, hl⟩ := hrun (start mem answers) [] hstart hnone hok
  refine ⟨s, hexec, ⟨cs, heapInv_of_holds hh hl⟩, fun c hallowed hsafe => ?_⟩
  obtain ⟨p, h, -, hcall, -, -, hpres⟩ := call_spec hh hl hallowed hsafe
  exact ⟨p, h, hcall, hpres⟩

/-- A process allocates 100 bytes and frees them. -/
theorem heapInvariant_mallocFree :
    ∃ s, exec step (start (fun _ => 0) [some 4096]) [.malloc 100, .free 4128] = some s ∧
      (∃ cs, HeapInv s cs) ∧ ∀ c, Allowed s c → SafeCall s c →
        ∃ p h, c.run s.heap = some (p, h) ∧ Preserves s c p h := by
  have hsmall : 100 + 48 ≤ 2 ^ 64 := by decide
  refine heapInvariant (fun _ => 0) [some 4096] [.malloc 100, .free 4128]
    ⟨⟨hsmall, fun size hsize => ?_⟩, fun t ht => ⟨⟨Or.inr ?_, fun size hsize => ?_⟩,
      fun _ _ => trivial⟩⟩
  · cases hsize
    exact ⟨fun hfail => absurd hfail.2 (by decide), not_cutsChain_of_empty rfl _⟩
  · have hlive : (step (start (fun _ => 0) [some 4096]) (.malloc 100)).map State.live =
        some [⟨4128, 100, 16⟩] := by decide
    rw [ht] at hlive
    have ht : t.live = [⟨4128, 100, 16⟩] := Option.some_inj.mp hlive
    exact ⟨⟨4128, 100, 16⟩, by simp [ht], rfl⟩
  · cases hsize

/-! ## The first growth -/

/-- When `mmap` gives no block to begin the list with, `malloc_nolock` faults: it reads the link of
a tail that is `NULL`, where it returns `NULL` when a later growth fails. -/
theorem mallocNolock_initFails {h : Heap} (hfail : InitFails h) (size : ℕ) :
    mallocNolock h size = none := by
  obtain ⟨hhead, hmmap⟩ := hfail
  have hgrow : (arenaInit h).gHead = 0 := by
    have hsize : blockSize 0 = arenaSize := by decide
    rw [arenaInit, if_neg (by simp [hhead]), arenaGrow, hsize]
    rcases mmap_cases h arenaSize with ⟨as, hnone⟩ | ⟨base, as, -, hsome⟩
    · rw [hnone]
    · rw [hsome] at hmmap
      cases hmmap
  have hfind : ∀ m n fuel, findFit m n fuel 0 = none := by
    intro m n fuel
    cases fuel with
    | zero => rfl
    | succ fuel => rw [findFit, if_pos rfl]
  simp only [mallocNolock, hgrow, hfind, if_pos]

/-- The invariant does not hold along every run of allowed calls: the first call faults when its
`mmap` fails. -/
theorem not_heapInvariant_noArena :
    ¬∀ mem answers calls, Along step Allowed (start mem answers) calls →
      ∃ s, exec step (start mem answers) calls = some s ∧ ∃ cs, HeapInv s cs := by
  intro h
  have hsmall : 1 + 48 ≤ 2 ^ 64 := by decide
  obtain ⟨s, hexec, -⟩ := h (fun _ => 0) [none] [.malloc 1] ⟨hsmall, fun _ _ => trivial⟩
  have hfault : mallocNolock (start (fun _ => 0) [none]).heap 1 = none :=
    mallocNolock_initFails ⟨rfl, rfl⟩ 1
  have hstep : step (start (fun _ => 0) [none]) (.malloc 1) = none := by
    rw [step, Call.run, hfault]
    rfl
  rw [exec, hstep] at hexec
  cases hexec

end Asteros.Malloc
