import Asteros.Libc.CTypes
import Asteros.Malloc.Chunk

set_option autoImplicit false

/-!
# The allocator

The functions of `malloc.c` on the memory they work on. The list of chunks lives in the memory;
`g_head` is the address of its first chunk, and `NULL` is 0. Reading a member through `NULL` is a
fault: the function has no result. Everything here runs with the allocator's lock held.

`mmap` is a system call. What it answers is a part of the heap, one answer for each call to come;
an answer that no kernel gives (a block that is not page-aligned or overlaps one it gave before)
counts as a failure, so every list of answers is a behaviour of the system and every behaviour is
one of a list. A new block is filled with zeros.

## Main definitions

* `Heap` — the memory, the head of the list, and the blocks from `mmap`.
* `mallocNolock`, `freeNolock` — the two functions on the list.
* `calloc`, `realloc`, `reallocarray`, `alignedAlloc` — the public functions that do more than to
  call one of them.
-/

namespace Asteros.Malloc

open Asteros.Libc

/-- A block of addresses from `mmap`. -/
structure Block where
  /-- The first address. -/
  base : ℕ
  /-- The number of bytes. -/
  len : ℕ
  deriving DecidableEq

/-- The address behind a block. -/
def Block.finish (b : Block) : ℕ := b.base + b.len

/-- The state of the allocator. -/
structure Heap where
  /-- The memory of the process. -/
  mem : ℕ → UInt8
  /-- `g_head`. -/
  gHead : ℕ
  /-- The blocks that `mmap` has given. -/
  blocks : List Block
  /-- What `mmap` will answer: a base address, or a failure. -/
  answers : List (Option ℕ)

/-- `CHUNK_SCAN_LIMIT`. -/
def chunkScanLimit : ℕ := 2000000

/-- `ARENA_SIZE`. -/
def arenaSize : ℕ := 8 * 1024 * 1024

/-- A block that a kernel can give: page-aligned, not at `NULL`, in the half of the address space
that is the user's, and apart from the others. -/
def Block.Fresh (b : Block) (bs : List Block) : Prop :=
  4096 ∣ b.base ∧ b.base ≠ 0 ∧ b.finish ≤ 2 ^ 47 ∧
    ∀ c ∈ bs, b.finish ≤ c.base ∨ c.finish ≤ b.base

instance (b : Block) (bs : List Block) : Decidable (b.Fresh bs) :=
  inferInstanceAs (Decidable (_ ∧ _))

/-- `mmap(0, len, …)`: the base of a fresh block full of zeros, or `(void *)-1`. -/
def mmap (h : Heap) (len : ℕ) : Option ℕ × Heap :=
  match h.answers with
  | [] => (none, h)
  | none :: as => (none, { h with answers := as })
  | some base :: as =>
    if Block.Fresh ⟨base, len⟩ h.blocks then
      (some base, { h with
        mem := ByteMemory.store h.mem base (List.replicate len 0)
        blocks := ⟨base, len⟩ :: h.blocks
        answers := as })
    else (none, { h with answers := as })

/-- The `block_size` of `arena_grow`. -/
def blockSize (minSize : ℕ) : ℕ :=
  if arenaSize < sizeAdd minSize sizeofChunk then sizeAdd minSize sizeofChunk else arenaSize

/-- The header that `arena_grow` writes: one free chunk for the whole block. -/
def initBlock (m : ℕ → UInt8) (c len : ℕ) : ℕ → UInt8 :=
  let m := set m c .size (sizeSub len sizeofChunk)
  let m := set m c .free 1
  set m c .next 0

/-- `arena_grow`: a new block with one free chunk, or `NULL`. -/
def arenaGrow (h : Heap) (minSize : ℕ) : ℕ × Heap :=
  match mmap h (blockSize minSize) with
  | (none, h) => (0, h)
  | (some c, h) => (c, { h with mem := initBlock h.mem c (blockSize minSize) })

/-- `arena_init`. -/
def arenaInit (h : Heap) : Heap :=
  if h.gHead ≠ 0 then h
  else
    let (head, h) := arenaGrow h 0
    { h with gHead := head }

/-- `align16`. -/
def align16 (n : ℕ) : ℕ := sizeAdd n 15 &&& (2 ^ 64 - 1 - 15)

/-- The first loop of `malloc_nolock`, from a chunk on, for at most `fuel` chunks: the first free
chunk with enough room. -/
def findFit (m : ℕ → UInt8) (size : ℕ) : ℕ → ℕ → Option ℕ
  | 0, _ => none
  | fuel + 1, c =>
    if c = 0 then none
    else if get m c .free = 0 ∨ get m c .size < size then findFit m size fuel (get m c .next)
    else some c

/-- Both branches of `malloc_nolock` end so: the chunk is split if there is room for another header
and a useful minimum payload, and is no longer free. -/
def takeChunk (m : ℕ → UInt8) (c size : ℕ) : ℕ → UInt8 :=
  let m :=
    if sizeAdd (sizeAdd size sizeofChunk) 8 ≤ get m c .size then
      let rem := sizeAdd (c + sizeofChunk) size
      let m := set m rem .size (sizeSub (sizeSub (get m c .size) size) sizeofChunk)
      let m := set m rem .free 1
      let m := set m rem .next (get m c .next)
      let m := set m c .next rem
      set m c .size size
    else m
  set m c .free 0

/-- The second loop of `malloc_nolock`: at most `fuel` links on from a chunk. -/
def walkTail (m : ℕ → UInt8) : ℕ → ℕ → ℕ
  | 0, tail => tail
  | fuel + 1, tail => if get m tail .next = 0 then tail else walkTail m fuel (get m tail .next)

/-- The size that `malloc_nolock` looks for. -/
def roundSize (size : ℕ) : ℕ := align16 (if size = 0 then 1 else size)

/-- `malloc_nolock`: the payload, or `NULL`. It faults at `tail->next` when the list is empty. -/
def mallocNolock (h : Heap) (size : ℕ) : Option (ℕ × Heap) :=
  let h := arenaInit h
  let size := roundSize size
  match findFit h.mem size chunkScanLimit h.gHead with
  | some c => some (c + sizeofChunk, { h with mem := takeChunk h.mem c size })
  | none =>
    if h.gHead = 0 then none
    else
      let tail := walkTail h.mem chunkScanLimit h.gHead
      let (fresh, h) := arenaGrow h size
      if fresh = 0 then some (0, h)
      else
        let m := set h.mem tail .next fresh
        some (fresh + sizeofChunk, { h with mem := takeChunk m fresh size })

/-- The loop of `free_nolock`, from a chunk on, for at most `fuel` chunks: a free chunk swallows the
next one if that is free and lies right behind it. -/
def coalesce : ℕ → ℕ → (ℕ → UInt8) → ℕ → UInt8
  | 0, _, m => m
  | fuel + 1, p, m =>
    if p = 0 then m
    else if get m p .next = 0 then m
    else
      let next := get m p .next
      let m :=
        if get m p .free ≠ 0 ∧ get m next .free ≠ 0 ∧ p + sizeofChunk + get m p .size = next then
          let m := set m p .size (sizeAdd (get m p .size)
            (sizeAdd sizeofChunk (get m next .size)))
          set m p .next (get m next .next)
        else m
      coalesce fuel (get m p .next) m

/-- `free_nolock`. -/
def freeNolock (h : Heap) (ptr : ℕ) : Heap :=
  if ptr = 0 then h
  else
    { h with mem := coalesce chunkScanLimit h.gHead (set h.mem (ptr - sizeofChunk) .free 1) }

/-- `calloc`: `NULL` when the product overflows. -/
def calloc (h : Heap) (nmemb size : ℕ) : Option (ℕ × Heap) :=
  let total := nmemb * size % 2 ^ 64
  if nmemb ≠ 0 ∧ total / nmemb ≠ size then some (0, h)
  else
    match mallocNolock h total with
    | none => none
    | some (p, h) =>
      if p = 0 then some (0, h)
      else some (p, { h with mem := ByteMemory.store h.mem p (List.replicate total 0) })

/-- `realloc`. -/
def realloc (h : Heap) (ptr size : ℕ) : Option (ℕ × Heap) :=
  if ptr = 0 then mallocNolock h size
  else if size = 0 then some (0, freeNolock h ptr)
  else
    let c := ptr - sizeofChunk
    if size ≤ get h.mem c .size then some (ptr, h)
    else
      match mallocNolock h size with
      | none => none
      | some (n, h) =>
        if n = 0 then some (0, h)
        else
          let bytes := ByteMemory.load h.mem ptr (get h.mem c .size)
          some (n, freeNolock { h with mem := ByteMemory.store h.mem n bytes } ptr)

/-- `reallocarray`. -/
def reallocarray (h : Heap) (ptr nmemb size : ℕ) : Option (ℕ × Heap) :=
  let total := nmemb * size % 2 ^ 64
  if nmemb ≠ 0 ∧ total / nmemb ≠ size then some (0, h) else realloc h ptr total

/-- The header that `aligned_alloc` places at `newc`, with the slack before it carved off as a free
chunk. -/
def carve (m : ℕ → UInt8) (orig newc : ℕ) : ℕ → UInt8 :=
  let frontWaste := sizeSub newc orig
  let m := set m newc .size (sizeSub (get m orig .size) frontWaste)
  let m := set m newc .free 0
  let m := set m newc .next (get m orig .next)
  let m := set m orig .size (sizeSub frontWaste sizeofChunk)
  let m := set m orig .free 1
  set m orig .next newc

/-- The address that `aligned_alloc` rounds up to. -/
def alignUp (raw alignment : ℕ) : ℕ :=
  (raw + sizeofChunk + alignment - 1) % 2 ^ 64 &&& (2 ^ 64 - 1 - (alignment - 1))

/-- `aligned_alloc`. -/
def alignedAlloc (h : Heap) (alignment size : ℕ) : Option (ℕ × Heap) :=
  if alignment ≤ 8 then mallocNolock h size
  else
    match mallocNolock h (sizeAdd (sizeAdd size alignment) sizeofChunk) with
    | none => none
    | some (raw, h) =>
      if raw = 0 then some (0, h)
      else
        let aligned := alignUp raw alignment
        let orig := raw - sizeofChunk
        let newc := sizeSub aligned sizeofChunk
        some (aligned, { h with mem := carve h.mem orig newc })

end Asteros.Malloc
