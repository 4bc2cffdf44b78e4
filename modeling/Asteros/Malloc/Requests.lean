import Asteros.Malloc.SoundHeap

set_option autoImplicit false

/-!
# Requests of every size

A request is honoured if the call returns `NULL`, or a block whose header has room for the request
and whose bytes lie in the blocks from `mmap`. Rounding a request up and adding a header is done
modulo `2 ^ 64`, and only the product of `calloc` and `reallocarray` is checked.

## Main definitions

* `Honoured` — what is asked of a call.
* `Serves` — the request does not wrap, or nothing has room for what it wraps to.
* `Resizes` — the same for a block that is resized.

## Main results

* `requests_iff` — which requests are honoured.
-/

namespace Asteros.Malloc

open Asteros.Libc ByteMemory

/-! ## Honoured requests -/

/-- The call returns `NULL`, or a block of the heap with room for the request. -/
def Honoured (request : ℕ) (r : Option (ℕ × Heap)) : Prop :=
  ∃ p h, r = some (p, h) ∧ (p = 0 ∨ request ≤ payloadSize h p ∧
    ∀ x, p ≤ x → x < p + request → x ∈ region h.blocks)

/-- What `malloc_nolock` is asked for does not wrap when it is rounded up with a header, or nothing
has room for what it wraps to; and the list is not empty with no block to begin it. -/
def Serves (h : Heap) (size : ℕ) : Prop :=
  ¬InitFails h ∧ (size + 48 ≤ 2 ^ 64 ∨ NoRoom (arenaInit h) (size % 2 ^ 64))

/-- The request fits into the block that is passed, or `malloc_nolock` serves it. -/
def Resizes (h : Heap) (ptr size : ℕ) : Prop :=
  ptr ≠ 0 ∧ size ≤ payloadSize h ptr ∨ Serves h size

/-- What `aligned_alloc` asks `malloc_nolock` for. -/
def withSlack (alignment size : ℕ) : ℕ :=
  if alignment ≤ 8 then size else size + alignment + sizeofChunk

section

variable {h : Heap} {R : Set ℕ} {c p n size : ℕ}

/-! ## `malloc` and `calloc` -/

/-- The payload of a chunk lies in the blocks. -/
lemma Sound.payload_mem (hs : Sound h R) (hp : InUse h R p) (hn : n ≤ payloadSize h p) :
    ∀ x, p ≤ x → x < p + n → x ∈ region h.blocks := by
  obtain ⟨hle, hc, -⟩ := hp
  rw [payloadSize] at hn
  exact fun x hlo hhi => hs.mapped _ hc x (by omega) (by omega)

/-- A block that large does not fit into the user's half of the address space. -/
lemma not_region (hblocks : ∀ b ∈ h.blocks, b.finish ≤ 2 ^ 47) (hn : 2 ^ 47 < n) :
    ¬∀ x, p ≤ x → x < p + n → x ∈ region h.blocks := by
  intro hall
  obtain ⟨b, hb, -, hhi⟩ := hall (p + n - 1) (by omega) (by omega)
  have := hblocks b hb
  omega

/-- **`malloc`** honours the requests that `malloc_nolock` serves. -/
lemma honoured_malloc (hs : Sound h R) (hsize : size < 2 ^ 64) :
    Honoured size (mallocNolock h size) ↔ Serves h size := by
  unfold Serves
  rw [Nat.mod_eq_of_lt hsize]
  by_cases hinit : InitFails h
  · rw [mallocNolock_initFails hinit]
    exact iff_of_false (fun ⟨_, _, hr, _⟩ => Option.some_ne_none _ hr.symm) fun h => h.1 hinit
  · by_cases hsmall : size + 48 ≤ 2 ^ 64
    · refine iff_of_true ?_ ⟨hinit, Or.inl hsmall⟩
      obtain ⟨p, h', hcall, hp⟩ := mallocNolock_sound hs hsmall hinit
      refine ⟨p, h', hcall, hp.imp id ?_⟩
      rintro ⟨R', hs', -, huse, hroom, -⟩
      exact ⟨hroom, hs'.payload_mem huse hroom⟩
    · rcases mallocNolock_cases hs hinit size with ⟨hno, h', hcall⟩ | ⟨hno, p, h', hcall, hlt, -, hb⟩
      · exact iff_of_true ⟨0, h', hcall, Or.inl rfl⟩ ⟨hinit, Or.inr hno⟩
      · refine iff_of_false ?_ fun h => hno (h.2.resolve_left hsmall)
        rintro ⟨p', h'', hr, hp⟩
        rw [hcall] at hr
        cases hr
        obtain hnull | ⟨-, hall⟩ := hp
        · omega
        · exact not_region hb (by omega) hall

/-- The sizes that `align16` wraps to nothing. -/
lemma roundSize_wrapped (hlo : 2 ^ 64 - 16 < size) (hhi : size < 2 ^ 64) : roundSize size = 0 := by
  have hwrap : sizeAdd size 15 < 2 ^ 4 := by
    rw [sizeAdd]
    omega
  rw [roundSize, if_neg (by omega), align16]
  refine (land_mask (k := 4) (by omega) (by decide)).trans ?_
  rw [Nat.div_eq_of_lt hwrap, Nat.zero_mul]

/-- **A size that wraps to nothing** is served with a header that does not have room for it. -/
lemma header_wrapped (hs : Sound h R) (hlo : 2 ^ 64 - 16 < size) (hhi : size < 2 ^ 64) :
    (∃ p h', mallocNolock h size = some (p, h') ∧ (p = 0 ∨ size ≤ payloadSize h' p)) ↔
      Serves h size := by
  unfold Serves
  rw [Nat.mod_eq_of_lt hhi]
  have hzero := roundSize_wrapped hlo hhi
  by_cases hinit : InitFails h
  · rw [mallocNolock_initFails hinit]
    exact iff_of_false (fun ⟨_, _, hr, _⟩ => Option.some_ne_none _ hr.symm) fun h => h.1 hinit
  have hdvd : 16 ∣ roundSize size := by
    rw [hzero]
    exact dvd_zero 16
  have hround : roundSize size + splitRoom < 2 ^ 64 := by
    rw [hzero]
    decide
  obtain ⟨p, h', hcall, hp⟩ := mallocNolock_rounded hs hdvd hround hinit
  rcases mallocNolock_cases hs hinit size with ⟨hno, h'', hcall'⟩ | ⟨hno, q, h'', hcall', hlt, -, -⟩
  · exact iff_of_true ⟨0, h'', hcall', Or.inl rfl⟩ ⟨hinit, Or.inr hno⟩
  · refine iff_of_false ?_ fun hserves => hserves.2.elim (fun hle => ?_) hno
    · rw [hcall]
      rintro ⟨p', h₁, hr, hp'⟩
      cases hr
      rw [hcall] at hcall'
      cases hcall'
      have hne : p ≠ 0 := by omega
      obtain ⟨R', -, -, -, -, hsmall, -⟩ := hp.resolve_left hne
      have hroom := hp'.resolve_left hne
      rw [hzero, splitRoom, sizeofChunk] at hsmall
      omega
    · omega

/-- **`calloc`** honours what `malloc_nolock` serves of the products that do not overflow. -/
lemma honoured_calloc (hs : Sound h R) (nmemb size : ℕ) :
    Honoured (nmemb * size) (calloc h nmemb size) ↔
      (nmemb * size < 2 ^ 64 → Serves h (nmemb * size)) := by
  unfold calloc
  dsimp only
  by_cases hover : 2 ^ 64 ≤ nmemb * size
  · rw [if_pos (overflow_iff.mpr hover)]
    exact iff_of_true ⟨0, h, rfl, Or.inl rfl⟩ fun hlt => by omega
  · have hlt := not_le.mp hover
    rw [if_neg (overflow_iff.not.mpr hover), Nat.mod_eq_of_lt hlt]
    rw [imp_iff_right hlt, ← honoured_malloc hs hlt]
    generalize nmemb * size = total at hlt
    by_cases hinit : InitFails h
    · rw [mallocNolock_initFails hinit]
    · rcases mallocNolock_cases hs hinit total with
        ⟨-, h', hcall⟩ | ⟨-, p, h', hcall, hp, -, -⟩
      · rw [hcall]
        rfl
      · rw [hcall]
        dsimp only
        rw [if_neg (by omega)]
        have hheader : payloadSize { h' with mem := store h'.mem p (List.replicate total 0) } p =
            payloadSize h' p := by
          unfold payloadSize
          exact get_congr fun x _ hx => store_of_not_mem (by omega)
        constructor
        · rintro ⟨p', h'', hr, hp'⟩
          cases hr
          exact ⟨p, h', rfl, hp'.imp id fun h => ⟨hheader ▸ h.1, h.2⟩⟩
        · rintro ⟨p', h'', hr, hp'⟩
          cases hr
          exact ⟨p, _, rfl, hp'.imp id fun h => ⟨hheader.symm ▸ h.1, h.2⟩⟩

/-! ## `realloc` -/

/-- The block that `realloc` moves to keeps its size when the old one is freed. -/
lemma payloadSize_moved {ptr : ℕ} {bytes : List UInt8} (hs : Sound h R) (huse : InUse h R p)
    (hptr : InUse h R ptr) (hlen : bytes.length ≤ payloadSize h p) (hne : ptr ≠ p) :
    payloadSize (freeNolock { h with mem := store h.mem p bytes } ptr) p = payloadSize h p := by
  obtain ⟨hple, hq, hqfree⟩ := huse
  obtain ⟨hptrle, hc, hcfree⟩ := hptr
  rw [sizeofChunk] at hple hptrle
  have hptrne : ptr ≠ 0 := by omega
  have hcq : ptr - sizeofChunk ≠ p - sizeofChunk := by
    rw [sizeofChunk]
    omega
  have hcopy : ∀ d ∈ R, ∀ f, get (store h.mem p bytes) d f = get h.mem d f := by
    intro d hd f
    refine get_congr fun x hx hx' => store_of_not_mem ?_
    rw [payloadSize] at hlen
    by_cases hdq : d = p - sizeofChunk
    · rw [hdq, sizeofChunk] at hx'
      omega
    · have := hs.apart d hd _ hq hdq
      rw [sizeofChunk] at *
      omega
  have hmark : ∀ d ∈ R, ∀ f, f ≠ .free →
      get (set (store h.mem p bytes) (ptr - sizeofChunk) .free 1) d f = get h.mem d f := by
    intro d hd f hf
    by_cases hdc : d = ptr - sizeofChunk
    · rw [hdc, get_set_ne hf, hcopy _ hc]
    · rw [get_set_apart (hs.headers hd hc hdc), hcopy d hd]
  have hqmark : get (set (store h.mem p bytes) (ptr - sizeofChunk) .free 1) (p - sizeofChunk) .free =
      0 := by
    rw [get_set_apart (hs.headers hq hc (Ne.symm hcq)), hcopy _ hq]
    exact hqfree
  unfold payloadSize freeNolock
  rw [if_neg hptrne]
  dsimp only
  rw [get_coalesce (R := R) ?_ ?_ hs.head hq hqmark, hmark _ hq .size (by decide)]
  · intro d hd
    rw [hmark d hd .next (by decide)]
    exact hs.next d hd
  · exact fun c hc d hd hne => hs.headers hc hd hne

/-- `free_nolock` unmaps nothing. -/
lemma freeNolock_blocks (h : Heap) (ptr : ℕ) : (freeNolock h ptr).blocks = h.blocks := by
  unfold freeNolock
  split_ifs <;> rfl

/-- **`realloc`** honours the requests that fit, and those that `malloc_nolock` serves. -/
lemma honoured_realloc {ptr : ℕ} (hs : Sound h R) (hptr : ptr = 0 ∨ InUse h R ptr)
    (hsize : size < 2 ^ 64) : Honoured size (realloc h ptr size) ↔ Resizes h ptr size := by
  unfold Resizes realloc
  by_cases hnull : ptr = 0
  · rw [if_pos hnull, honoured_malloc hs hsize]
    exact ⟨Or.inr, fun hor => hor.resolve_left fun hand => hand.1 hnull⟩
  have huse := hptr.resolve_left hnull
  rw [if_neg hnull]
  by_cases hzero : size = 0
  · rw [if_pos hzero]
    exact iff_of_true ⟨0, _, rfl, Or.inl rfl⟩ (Or.inl ⟨hnull, by omega⟩)
  rw [if_neg hzero]
  dsimp only
  by_cases hfit : size ≤ get h.mem (ptr - sizeofChunk) .size
  · rw [if_pos hfit]
    exact iff_of_true ⟨ptr, h, rfl, Or.inr ⟨hfit, hs.payload_mem huse hfit⟩⟩ (Or.inl ⟨hnull, hfit⟩)
  rw [if_neg hfit]
  have hserves : (ptr ≠ 0 ∧ size ≤ payloadSize h ptr ∨ Serves h size) ↔ Serves h size :=
    or_iff_right fun hand => hfit hand.2
  rw [hserves, ← honoured_malloc hs hsize]
  by_cases hinit : InitFails h
  · rw [mallocNolock_initFails hinit]
  by_cases hsmall : size + 48 ≤ 2 ^ 64
  · rw [honoured_malloc hs hsize]
    refine iff_of_true ?_ ⟨hinit, Or.inl hsmall⟩
    obtain ⟨p, h', hcall, hp⟩ := mallocNolock_sound hs hsmall hinit
    rw [hcall]
    dsimp only
    rcases hp with rfl | ⟨R', hs', hsub, huse', hroom, hkept⟩
    · exact ⟨0, h', rfl, Or.inl rfl⟩
    · obtain ⟨hne, hsame⟩ := hkept _ huse.2.1 huse.2.2
      have hptr' : InUse h' R' ptr :=
        ⟨huse.1, hsub huse.2.1, (hsame .free (by decide)).trans huse.2.2⟩
      have hp : p ≠ 0 := by
        have := huse'.1
        rw [sizeofChunk] at this
        omega
      rw [if_neg hp, hsame .size (by decide)]
      refine ⟨p, _, rfl, Or.inr ?_⟩
      rw [payloadSize_moved hs' huse' hptr' ?_ ?_, freeNolock_blocks]
      · exact ⟨hroom, hs'.payload_mem huse' hroom⟩
      · rw [length_load]
        omega
      · have := huse.1
        omega
  · rcases mallocNolock_cases hs hinit size with ⟨-, h', hcall⟩ | ⟨-, p, h', hcall, hlt, -, hb⟩
    · rw [hcall]
      rfl
    · rw [hcall]
      dsimp only
      rw [if_neg (by omega)]
      refine iff_of_false ?_ ?_
      · rintro ⟨p', h'', hr, hp⟩
        cases hr
        obtain hnull | ⟨-, hall⟩ := hp
        · omega
        · rw [freeNolock_blocks] at hall
          exact not_region hb (by omega) hall
      · rintro ⟨p', h'', hr, hp⟩
        cases hr
        obtain hnull | ⟨-, hall⟩ := hp
        · omega
        · exact not_region hb (by omega) hall

/-- **`reallocarray`** honours what `realloc` does of the products that do not overflow. -/
lemma honoured_reallocarray {ptr : ℕ} (hs : Sound h R) (hptr : ptr = 0 ∨ InUse h R ptr)
    (nmemb size : ℕ) : Honoured (nmemb * size) (reallocarray h ptr nmemb size) ↔
      (nmemb * size < 2 ^ 64 → Resizes h ptr (nmemb * size)) := by
  unfold reallocarray
  dsimp only
  by_cases hover : 2 ^ 64 ≤ nmemb * size
  · rw [if_pos (overflow_iff.mpr hover)]
    exact iff_of_true ⟨0, h, rfl, Or.inl rfl⟩ fun hlt => by omega
  · have hlt := not_le.mp hover
    rw [if_neg (overflow_iff.not.mpr hover), Nat.mod_eq_of_lt hlt, imp_iff_right hlt]
    exact honoured_realloc hs hptr hlt

/-! ## `aligned_alloc` -/

/-- Masking bits off takes no more away than the bits. -/
lemma le_land_mask {x m : ℕ} (hx : x < 2 ^ 64) (hm : m < 2 ^ 64) :
    x ≤ (x &&& (2 ^ 64 - 1 - m)) + m := by
  have hparts : (BitVec.ofNat 64 x &&& ~~~BitVec.ofNat 64 m) &&&
      (BitVec.ofNat 64 x &&& BitVec.ofNat 64 m) = 0#64 := by
    ext i
    simp +contextual
  have hsum := BitVec.toNat_add_of_and_eq_zero hparts
  rw [BitVec.add_eq_or_of_and_eq_zero _ _ hparts] at hsum
  have hwhole : BitVec.ofNat 64 x &&& ~~~BitVec.ofNat 64 m |||
      BitVec.ofNat 64 x &&& BitVec.ofNat 64 m = BitVec.ofNat 64 x := by
    ext i
    simp [← Bool.and_or_distrib_left]
  rw [hwhole, BitVec.toNat_and, BitVec.toNat_and, BitVec.toNat_not, BitVec.toNat_ofNat,
    BitVec.toNat_ofNat, Nat.mod_eq_of_lt hx, Nat.mod_eq_of_lt hm] at hsum
  have hlow : x &&& m ≤ m := Nat.and_le_right
  omega

/-- The payload moves by no more than the slack, whatever the alignment is. -/
lemma alignUp_bounds (raw : ℕ) {a : ℕ} (ha : 0 < a) (hlt : raw + sizeofChunk + a ≤ 2 ^ 64) :
    raw + sizeofChunk ≤ alignUp raw a ∧ alignUp raw a < raw + sizeofChunk + a := by
  have hmod : (raw + sizeofChunk + a - 1) % 2 ^ 64 = raw + sizeofChunk + a - 1 :=
    Nat.mod_eq_of_lt (by omega)
  rw [alignUp, hmod]
  have hlo := le_land_mask (x := raw + sizeofChunk + a - 1) (m := a - 1) (by omega) (by omega)
  have hhi : (raw + sizeofChunk + a - 1) &&& (2 ^ 64 - 1 - (a - 1)) ≤ raw + sizeofChunk + a - 1 :=
    Nat.and_le_left
  omega

/-- The chunk behind the slack gets what is left of the size. -/
lemma payloadSize_carve {c' : ℕ} (hle : c + sizeofChunk ≤ c')
    (hfit : c' ≤ c + get h.mem c .size) (hlt : c' < 2 ^ 64) :
    payloadSize { h with mem := carve h.mem c c' } (c' + sizeofChunk) =
      get h.mem c .size - (c' - c) := by
  have hsz := get_size_lt h.mem c
  have hnext : get h.mem c .next < 256 ^ Field.next.width := loadNat_lt _ _ _
  have hrest : get h.mem c .size - (c' - c) < 256 ^ Field.size.width := by
    simp only [Field.width]
    omega
  rw [payloadSize, Nat.add_sub_cancel]
  simp only [carve]
  rw [sizeSub_of_le (a := c') (by omega) hlt, sizeSub_of_le (by omega) hsz]
  simp (disch := first | omega | assumption | decide) [get_set_apart]

/-- **`aligned_alloc`** honours what `malloc_nolock` serves with the slack. -/
lemma honoured_alignedAlloc {a : ℕ} (hs : Sound h R) (hsize : size < 2 ^ 64)
    (hserves : Serves h (withSlack a size)) : Honoured size (alignedAlloc h a size) := by
  unfold alignedAlloc
  unfold withSlack at hserves
  by_cases hsmall : a ≤ 8
  · rw [if_pos hsmall] at hserves ⊢
    exact (honoured_malloc hs hsize).mpr hserves
  rw [if_neg hsmall] at hserves ⊢
  have hsum : sizeAdd (sizeAdd size a) sizeofChunk = (size + a + sizeofChunk) % 2 ^ 64 := by
    rw [sizeAdd, sizeAdd, Nat.mod_add_mod]
  rw [hsum]
  obtain ⟨hinit, hor⟩ := hserves
  by_cases hwrap : size + a + sizeofChunk + 48 ≤ 2 ^ 64
  · rw [Nat.mod_eq_of_lt (by omega)]
    obtain ⟨raw, h₁, hcall, hp⟩ := mallocNolock_sound hs hwrap hinit
    rw [hcall]
    dsimp only
    by_cases hnull : raw = 0
    · rw [if_pos hnull]
      exact ⟨0, h₁, rfl, Or.inl rfl⟩
    · rw [if_neg hnull]
      obtain ⟨R', hs', -, ⟨hle, hc, -⟩, hroom, -⟩ := hp.resolve_left hnull
      obtain ⟨-, hfin⟩ := hs'.bounds hc
      rw [payloadSize] at hroom
      obtain ⟨hlo, hhi⟩ := alignUp_bounds raw (a := a) (by omega) (by omega)
      generalize alignUp raw a = aligned at hlo hhi
      rw [sizeSub_of_le (by omega) (by omega)]
      refine ⟨aligned, _, rfl, Or.inr ⟨?_, fun x hx hx' => ?_⟩⟩
      · have haligned : aligned = aligned - sizeofChunk + sizeofChunk := by omega
        rw [haligned, Nat.add_sub_cancel, payloadSize_carve (by omega) (by omega) (by omega)]
        omega
      · exact hs'.mapped _ hc x (by omega) (by omega)
  · rcases mallocNolock_cases hs hinit ((size + a + sizeofChunk) % 2 ^ 64) with
      ⟨-, h', hcall⟩ | ⟨hno, -⟩
    · rw [hcall]
      exact ⟨0, h', rfl, Or.inl rfl⟩
    · exact absurd (hor.resolve_left hwrap) hno

/-- **`aligned_alloc`** honours no other request, if the alignment can be a power of two. -/
lemma serves_alignedAlloc {a : ℕ} (hs : Sound h R) (hsize : size < 2 ^ 64) (ha : a ≤ 2 ^ 63)
    (hhonoured : Honoured size (alignedAlloc h a size)) : Serves h (withSlack a size) := by
  unfold alignedAlloc at hhonoured
  unfold withSlack
  by_cases hsmall : a ≤ 8
  · rw [if_pos hsmall] at hhonoured ⊢
    exact (honoured_malloc hs hsize).mp hhonoured
  rw [if_neg hsmall] at hhonoured ⊢
  have hsum : sizeAdd (sizeAdd size a) sizeofChunk = (size + a + sizeofChunk) % 2 ^ 64 := by
    rw [sizeAdd, sizeAdd, Nat.mod_add_mod]
  rw [hsum] at hhonoured
  by_cases hinit : InitFails h
  · rw [mallocNolock_initFails hinit] at hhonoured
    obtain ⟨_, _, hr, -⟩ := hhonoured
    exact absurd hr.symm (Option.some_ne_none _)
  refine ⟨hinit, ?_⟩
  by_cases hwrap : size + a + sizeofChunk + 48 ≤ 2 ^ 64
  · exact Or.inl hwrap
  · rcases mallocNolock_cases hs hinit ((size + a + sizeofChunk) % 2 ^ 64) with
      ⟨hno, -⟩ | ⟨-, raw, h', hcall, hlt, hle, hb⟩
    · exact Or.inr hno
    · rw [hcall] at hhonoured
      dsimp only at hhonoured
      rw [sizeofChunk] at hlt hle hwrap
      rw [if_neg (by omega)] at hhonoured
      obtain ⟨p, h₁, hr, hp⟩ := hhonoured
      cases hr
      have hlo := (alignUp_bounds raw (a := a) (by omega)
        (by rw [sizeofChunk]; omega)).1
      obtain hnull | ⟨-, hall⟩ := hp
      · omega
      · exact absurd hall (not_region hb (by omega))

end

/-! ## Every request -/

/-- The heap of a process that has not allocated yet is sound. -/
lemma sound_start (mem : ℕ → UInt8) (answers : List (Option ℕ)) :
    Sound (start mem answers).heap ∅ where
  head := Or.inl rfl
  next _ hc := absurd hc (Set.notMem_empty _)
  apart _ hc := absurd hc (Set.notMem_empty _)
  mapped _ hc := absurd hc (Set.notMem_empty _)
  blocks _ hb := absurd hb List.not_mem_nil

/-- **Which requests are honoured.** A product that overflows is refused and a block with room is
returned as it is; for the rest it is what `malloc_nolock` is asked for that must not wrap, or wrap
to something that nothing has room for. A size that wraps to nothing shows in the header already.
Where no power of two is as large as the alignment, `aligned_alloc` may wrap to any address. -/
theorem requests_iff {h : Heap} {R : Set ℕ} (hs : Sound h R) (n k a ptr : ℕ) (hn : n < 2 ^ 64)
    (hptr : ptr = 0 ∨ InUse h R ptr) :
    (Honoured n (mallocNolock h n) ↔ Serves h n) ∧
      (2 ^ 64 - 16 < n → ((∃ p h', mallocNolock h n = some (p, h') ∧
        (p = 0 ∨ n ≤ payloadSize h' p)) ↔ Serves h n)) ∧
      (Honoured (k * n) (calloc h k n) ↔ (k * n < 2 ^ 64 → Serves h (k * n))) ∧
      (Honoured n (realloc h ptr n) ↔ Resizes h ptr n) ∧
      (Honoured (k * n) (reallocarray h ptr k n) ↔
        (k * n < 2 ^ 64 → Resizes h ptr (k * n))) ∧
      (Serves h (withSlack a n) → Honoured n (alignedAlloc h a n)) ∧
      (a ≤ 2 ^ 63 → Honoured n (alignedAlloc h a n) → Serves h (withSlack a n)) := by
  refine ⟨honoured_malloc hs hn, fun hlo => header_wrapped hs hlo hn, honoured_calloc hs k n,
    honoured_realloc hs hptr hn, honoured_reallocarray hs hptr k n, ?_, ?_⟩
  · exact honoured_alignedAlloc hs hn
  · exact fun ha => serves_alignedAlloc hs hn ha

/-- The heap of a process that has allocated 100 bytes. -/
def allocated : Heap :=
  (mallocNolock (start (fun _ => 0) [some 4096]).heap 100).elim
    (start (fun _ => 0) [some 4096]).heap Prod.snd

/-- It is sound, and its chunk is in use. -/
lemma sound_allocated : ∃ R, Sound allocated R ∧ InUse allocated R 4128 := by
  have hstart : Holds (start (fun _ => 0) [some 4096]).heap [] := ⟨stored_nil.mpr rfl, layout_nil⟩
  have hallowed : Allowed (start (fun _ => 0) [some 4096]) (.malloc 100) :=
    show 100 + 48 ≤ 2 ^ 64 by decide
  have hsafe : SafeCall (start (fun _ => 0) [some 4096]) (.malloc 100) := fun size _ =>
    ⟨fun hfail => absurd hfail.2 (by decide), not_cutsChain_of_empty rfl size⟩
  obtain ⟨p, h, cs, hrun, hh, -⟩ :=
    call_spec hstart ⟨by simp [start], by simp [start]⟩ hallowed hsafe
  have hrun' : mallocNolock (start (fun _ => 0) [some 4096]).heap 100 = some (p, h) := hrun
  have heap_eq : allocated = h := by rw [allocated, hrun']; rfl
  rw [← heap_eq] at hh
  refine ⟨_, .of_holds hh (by decide), by decide, ?_, by decide⟩
  exact hh.stored.links.start_mem.resolve_left (by decide)

/-- The block of a process that has allocated 100 bytes is resized. -/
theorem requests_iff_allocated : Honoured 200 (realloc allocated 4128 200) := by
  obtain ⟨R, hs, huse⟩ := sound_allocated
  refine (requests_iff hs 200 1 16 4128 (by decide) (Or.inr huse)).2.2.2.1.mpr (Or.inr ⟨?_, ?_⟩)
  · exact fun hfail => absurd hfail.1 (by decide)
  · exact Or.inl (by decide)

/-- Not every request is honoured: the largest one is served by a chunk of no bytes. -/
theorem not_requests :
    ¬∀ (h : Heap) (R : Set ℕ) (n : ℕ), Sound h R → n < 2 ^ 64 →
      ∃ p h', mallocNolock h n = some (p, h') ∧ (p = 0 ∨ n ≤ payloadSize h' p) := by
  intro hall
  obtain ⟨p, h', hcall, hp⟩ := hall (start (fun _ => 0) [some 4096]).heap ∅ (2 ^ 64 - 1)
    (sound_start _ _) (by decide)
  have hserved : (mallocNolock (start (fun _ => 0) [some 4096]).heap (2 ^ 64 - 1)).map
      (fun r => (r.1, payloadSize r.2 r.1)) = some (4128, 0) := by decide
  rw [hcall, Option.map_some, Option.some_inj, Prod.mk.injEq] at hserved
  obtain ⟨hpayload, hsize⟩ := hserved
  dsimp only at hpayload hsize
  omega

end Asteros.Malloc
