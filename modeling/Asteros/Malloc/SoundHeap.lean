import Asteros.Malloc.HeapInvariant

set_option autoImplicit false

/-!
# Sound heaps

The heap need not be a well-formed list for `malloc_nolock` to give out good blocks: it is enough
that its links lead to headers whose chunks lie beside each other in the blocks from `mmap`. A list
that lost its end is such a heap too.

## Main definitions

* `Sound` — what is asked of a heap.
* `InUse` — the pointers that were given out.
* `NoRoom` — nothing has room for a size.

## Main results

* `mallocNolock_cases` — when `malloc_nolock` returns `NULL`.
* `mallocNolock_rounded` — what it returns otherwise.
-/

namespace Asteros.Malloc

open Asteros.Libc ByteMemory

/-! ## Heaps -/

/-- The chunks whose headers are at the addresses `R`: the links from `g_head` stay among them, they
lie beside each other in the blocks from `mmap`, and these are in the user's half of the address
space. -/
structure Sound (h : Heap) (R : Set ℕ) : Prop where
  /-- The list begins with a chunk, if it is not empty. -/
  head : h.gHead = 0 ∨ h.gHead ∈ R
  /-- A chunk is the last one, or followed by another. -/
  next : ∀ c ∈ R, get h.mem c .next = 0 ∨ get h.mem c .next ∈ R
  /-- Chunks lie beside each other. -/
  apart : ∀ c ∈ R, ∀ d ∈ R, c ≠ d →
    c + sizeofChunk + get h.mem c .size ≤ d ∨ d + sizeofChunk + get h.mem d .size ≤ c
  /-- Chunks lie in the blocks. -/
  mapped : ∀ c ∈ R, ∀ x, c ≤ x → x < c + sizeofChunk + get h.mem c .size → x ∈ region h.blocks
  /-- Where blocks lie. -/
  blocks : ∀ b ∈ h.blocks, b.base ≠ 0 ∧ b.finish ≤ 2 ^ 47

/-- The pointer is the payload of a chunk that is handed out. -/
def InUse (h : Heap) (R : Set ℕ) (ptr : ℕ) : Prop :=
  sizeofChunk ≤ ptr ∧ ptr - sizeofChunk ∈ R ∧ get h.mem (ptr - sizeofChunk) .free = 0

/-- None of the chunks that the scan looks at has room, and `mmap` gives no block. -/
def NoRoom (h : Heap) (size : ℕ) : Prop :=
  findFit h.mem (roundSize size) chunkScanLimit h.gHead = none ∧
    (mmap h (blockSize (roundSize size))).1 = none

section

variable {h h' : Heap} {R : Set ℕ} {m : ℕ → UInt8} {c d p n fuel size : ℕ} {cs : List Chunk}

/-- A heap whose chunks tile its blocks is sound. -/
lemma Sound.of_holds (hh : Holds h cs) (hblocks : ∀ b ∈ h.blocks, b.finish ≤ 2 ^ 47) :
    Sound h {a | a ∈ cs.map Chunk.addr} where
  head := hh.stored.links.start_mem
  next _ hc := hh.stored.links.next_mem hc
  apart := by
    intro c hc d hd hne
    obtain ⟨c, hmem, rfl⟩ := List.mem_map.mp hc
    obtain ⟨d, hmem', rfl⟩ := List.mem_map.mp hd
    rw [hh.stored.size c hmem, hh.stored.size d hmem']
    exact hh.layout.apart hmem hmem' fun heq => hne (congrArg Chunk.addr heq)
  mapped := by
    intro c hc x hlo hhi
    obtain ⟨c, hmem, rfl⟩ := List.mem_map.mp hc
    rw [hh.stored.size c hmem] at hhi
    exact (hh.layout.tiles.cover x).mpr ⟨c, hmem, hlo, hhi⟩
  blocks b hb := ⟨(hh.layout.blocks b hb).1, hblocks b hb⟩

/-- A chunk lies in the user's half of the address space. -/
lemma Sound.bounds (hs : Sound h R) (hc : c ∈ R) :
    c ≠ 0 ∧ c + sizeofChunk + get h.mem c .size ≤ 2 ^ 47 := by
  obtain ⟨b, hb, hlo, -⟩ := hs.mapped c hc c le_rfl (by rw [sizeofChunk]; omega)
  obtain ⟨b', hb', -, hhi⟩ := hs.mapped c hc (c + sizeofChunk + get h.mem c .size - 1)
    (by rw [sizeofChunk]; omega) (by rw [sizeofChunk]; omega)
  have hbase := (hs.blocks b hb).1
  have hfin := (hs.blocks b' hb').2
  rw [sizeofChunk] at hhi ⊢
  omega

/-- Only the sizes and the links matter. -/
lemma Sound.of_get (hs : Sound h R) (hsize : ∀ d ∈ R, get m d .size = get h.mem d .size)
    (hnext : ∀ d ∈ R, get m d .next = get h.mem d .next) : Sound { h with mem := m } R where
  head := hs.head
  next c hc := by
    rw [hnext c hc]
    exact hs.next c hc
  apart c hc d hd hne := by
    rw [hsize c hc, hsize d hd]
    exact hs.apart c hc d hd hne
  mapped c hc x hlo hhi := by
    rw [hsize c hc] at hhi
    exact hs.mapped c hc x hlo hhi
  blocks := hs.blocks

/-- Headers lie beside each other. -/
lemma Sound.headers (hs : Sound h R) (hc : c ∈ R) (hd : d ∈ R) (hne : c ≠ d) :
    c + sizeofChunk ≤ d ∨ d + sizeofChunk ≤ c := by
  have := hs.apart c hc d hd hne
  omega

/-! ## The loops -/

/-- What the scan finds is a free chunk with room. -/
lemma findFit_some (hs : Sound h R) (hp : p = 0 ∨ p ∈ R)
    (hfind : findFit h.mem n fuel p = some c) :
    c ∈ R ∧ get h.mem c .free ≠ 0 ∧ n ≤ get h.mem c .size := by
  induction fuel generalizing p with
  | zero => simp [findFit] at hfind
  | succ fuel ih =>
    rw [findFit] at hfind
    split_ifs at hfind with hnull hskip
    · exact ih (hs.next p (hp.resolve_left hnull)) hfind
    · cases hfind
      rw [not_or, not_lt] at hskip
      exact ⟨hp.resolve_left hnull, hskip⟩

/-- The walk to the tail ends at a chunk. -/
lemma walkTail_mem (hs : Sound h R) (hp : p ∈ R) : walkTail h.mem fuel p ∈ R := by
  induction fuel generalizing p with
  | zero => exact hp
  | succ fuel ih =>
    rw [walkTail]
    split_ifs with hlast
    · exact hp
    · exact ih ((hs.next p hp).resolve_left hlast)

/-- **The pass of `free`** does not change the size of a chunk that is handed out. -/
lemma get_coalesce (hnext : ∀ c ∈ R, get m c .next = 0 ∨ get m c .next ∈ R)
    (hapart : ∀ c ∈ R, ∀ d ∈ R, c ≠ d → c + sizeofChunk ≤ d ∨ d + sizeofChunk ≤ c)
    (hp : p = 0 ∨ p ∈ R) (hd : d ∈ R) (hfree : get m d .free = 0) :
    get (coalesce fuel p m) d .size = get m d .size := by
  induction fuel generalizing p m with
  | zero => rfl
  | succ fuel ih =>
    rw [coalesce]
    split_ifs with hnull hlast
    · rfl
    · rfl
    · have hpR := hp.resolve_left hnull
      have hnR := (hnext p hpR).resolve_left hlast
      dsimp only
      split_ifs with hjoin
      · have hne : p ≠ d := fun heq => hjoin.1 (heq ▸ hfree)
        have hlt : ∀ m : ℕ → UInt8, ∀ x, get m x .next < 256 ^ Field.next.width := fun m x =>
          loadNat_lt _ _ _
        -- the headers other than that of the chunk that swallows the next one
        have hother : ∀ x ∈ R, x ≠ p → ∀ (f g g' : Field) (v v' : ℕ),
            get (set (set m p g v) p g' v') x f = get m x f := by
          intro x hx hxp f g g' v v'
          rw [get_set_apart (hapart x hx p hpR hxp), get_set_apart (hapart x hx p hpR hxp)]
        rw [ih ?_ ?_ ?_]
        · exact hother d hd hne.symm _ _ _ _ _
        · intro x hx
          by_cases hxp : x = p
          · subst hxp
            rw [get_set_same (hlt _ _)]
            by_cases hloop : get m x .next = x
            · rw [hloop, get_set_ne (by decide)]
              exact hnext x hx
            · rw [get_set_apart (hapart _ hnR x hx hloop)]
              exact hnext _ hnR
          · rw [hother x hx hxp]
            exact hnext x hx
        · rw [get_set_same (hlt _ _)]
          by_cases hloop : get m p .next = p
          · rw [hloop, get_set_ne (by decide)]
            exact hnext p hpR
          · rw [get_set_apart (hapart _ hnR p hpR hloop)]
            exact hnext _ hnR
        · rw [hother d hd hne.symm]
          exact hfree
      · exact ih hnext (Or.inr hnR) hfree

/-! ## Handing out a chunk -/

/-- A chunk with room is not split behind its end. -/
lemma takeChunk_whole (hn : n + splitRoom < 2 ^ 64) (hfit : ¬n + splitRoom ≤ get m c .size) :
    takeChunk m c n = set m c .free 0 := by
  rw [takeChunk, sizeAdd_splitRoom hn, if_neg hfit]

/-- What is left of a chunk that is split. -/
lemma takeChunk_split (hn : n + splitRoom < 2 ^ 64) (hfit : n + splitRoom ≤ get m c .size)
    (hfin : c + sizeofChunk + get m c .size < 2 ^ 64) :
    get (takeChunk m c n) c .size = n ∧ get (takeChunk m c n) c .free = 0 ∧
      get (takeChunk m c n) c .next = c + sizeofChunk + n ∧
      get (takeChunk m c n) (c + sizeofChunk + n) .size = get m c .size - n - sizeofChunk ∧
      get (takeChunk m c n) (c + sizeofChunk + n) .next = get m c .next ∧
      ∀ x, (x < c ∨ c + sizeofChunk + get m c .size ≤ x) → takeChunk m c n x = m x := by
  rw [takeChunk, sizeAdd_splitRoom hn, if_pos hfit]
  rw [splitRoom] at hn hfit
  have hrem : sizeAdd (c + sizeofChunk) n = c + sizeofChunk + n := sizeAdd_of_lt (by omega)
  have hlt := get_size_lt m c
  have hnext : get m c .next < 256 ^ Field.next.width := loadNat_lt _ _ _
  have hrest : sizeSub (sizeSub (get m c .size) n) sizeofChunk =
      get m c .size - n - sizeofChunk := by
    rw [sizeSub_of_le (a := get m c .size) (by omega) (by omega),
      sizeSub_of_le (by omega) (by omega)]
  have hsz : n < 256 ^ Field.size.width := by
    simp only [Field.width]
    omega
  have hrestsz : get m c .size - n - sizeofChunk < 256 ^ Field.size.width := by
    simp only [Field.width]
    omega
  have hremsz : c + sizeofChunk + n < 256 ^ Field.next.width := by
    simp only [Field.width]
    omega
  rw [hrem, hrest]
  refine ⟨?_, ?_, ?_, ?_, ?_, fun x hx => ?_⟩
  · simp (disch := first | omega | assumption | decide) [get_set_apart]
  · simp (disch := first | omega | assumption | decide) [get_set_apart]
  · simp (disch := first | omega | assumption | decide) [get_set_apart]
  · simp (disch := first | omega | assumption | decide) [get_set_apart]
  · simp (disch := first | omega | assumption | decide) [get_set_apart]
  · dsimp only
    repeat rw [set_of_not_mem (by omega)]

/-- **Handing out a chunk** of a sound heap. -/
lemma sound_takeChunk (hs : Sound h R) (hc : c ∈ R) (hroom : n ≤ get h.mem c .size)
    (hn : n + splitRoom < 2 ^ 64) :
    ∃ R', Sound { h with mem := takeChunk h.mem c n } R' ∧ R ⊆ R' ∧
      get (takeChunk h.mem c n) c .free = 0 ∧ n ≤ get (takeChunk h.mem c n) c .size ∧
      get (takeChunk h.mem c n) c .size < n + splitRoom ∧
      ∀ d ∈ R, d ≠ c → ∀ f, get (takeChunk h.mem c n) d f = get h.mem d f := by
  have hbounds := hs.bounds hc
  by_cases hfit : n + splitRoom ≤ get h.mem c .size
  · obtain ⟨hsize, hfree, hnext, hrsize, hrnext, hframe⟩ := takeChunk_split hn hfit (by omega)
    rw [splitRoom] at hfit
    have hother : ∀ d ∈ R, d ≠ c → ∀ f, get (takeChunk h.mem c n) d f = get h.mem d f := by
      intro d hd hne f
      have hapart := hs.apart d hd c hc hne
      exact get_congr fun x hx hx' => hframe x (by omega)
    generalize takeChunk h.mem c n = m' at hsize hfree hnext hrsize hrnext hframe hother ⊢
    have hsmaller : ∀ d ∈ R, get m' d .size ≤ get h.mem d .size := by
      intro d hd
      by_cases hdc : d = c
      · rw [hdc, hsize]
        exact hroom
      · exact (hother d hd hdc .size).le
    refine ⟨insert (c + sizeofChunk + n) R, ⟨?_, ?_, ?_, ?_, hs.blocks⟩, Set.subset_insert _ _,
      hfree, hsize.ge, ?_, hother⟩
    · exact hs.head.imp id Or.inr
    · rintro d (rfl | hd)
      · rw [hrnext]
        exact (hs.next c hc).imp id Or.inr
      · by_cases hdc : d = c
        · rw [hdc, hnext]
          exact Or.inr (Or.inl rfl)
        · rw [hother d hd hdc]
          exact (hs.next d hd).imp id Or.inr
    · have hbehind : ∀ d ∈ R, c + sizeofChunk + n + sizeofChunk +
          get m' (c + sizeofChunk + n) .size ≤ d ∨
            d + sizeofChunk + get m' d .size ≤ c + sizeofChunk + n := by
        intro d hd
        by_cases hdc : d = c
        · rw [hdc, hsize]
          exact Or.inr le_rfl
        · have hapart := hs.apart c hc d hd (Ne.symm hdc)
          rw [hrsize, hother d hd hdc]
          omega
      rintro x (rfl | hx) y (rfl | hy) hne
      · exact absurd rfl hne
      · exact hbehind y hy
      · exact (hbehind x hx).symm
      · have hapart := hs.apart x hx y hy hne
        have hlex := hsmaller x hx
        have hley := hsmaller y hy
        dsimp only
        omega
    · rintro x (rfl | hx) y hlo hhi
      all_goals dsimp only at hhi
      · rw [hrsize] at hhi
        exact hs.mapped c hc y (by omega) (by omega)
      · have hle := hsmaller x hx
        exact hs.mapped x hx y hlo (by omega)
    · rw [hsize, splitRoom]
      omega
  · rw [takeChunk_whole hn hfit]
    have hsame : ∀ d ∈ R, ∀ f, f ≠ .free → get (set h.mem c .free 0) d f = get h.mem d f := by
      intro d hd f hf
      by_cases hdc : d = c
      · rw [hdc, get_set_ne hf]
      · exact get_set_apart (hs.headers hd hc hdc)
    refine ⟨R, ?_, subset_rfl, get_set_same (by decide), ?_, ?_, fun d hd hne f => ?_⟩
    · exact hs.of_get (fun d hd => hsame d hd .size (by decide))
        fun d hd => hsame d hd .next (by decide)
    · rw [get_set_ne (by decide)]
      exact hroom
    · rw [get_set_ne (by decide)]
      exact not_le.mp hfit
    · exact get_set_apart (hs.headers hd hc hne)

/-! ## Growing -/

/-- **A new block** in a sound heap is one more chunk, which nothing links to. -/
lemma sound_arenaGrow (hs : Sound h R) (hn : n + sizeofChunk < 2 ^ 64) (hdvd : 16 ∣ n) :
    ((mmap h (blockSize n)).1 = none ∧ ∃ as, arenaGrow h n = (0, { h with answers := as })) ∨
    ((mmap h (blockSize n)).1 ≠ none ∧ ∃ c h', arenaGrow h n = (c, h') ∧ c ∉ R ∧
      h'.gHead = h.gHead ∧ Sound h' (insert c R) ∧ n ≤ get h'.mem c .size ∧
      ∀ d ∈ R, ∀ f, get h'.mem d f = get h.mem d f) := by
  obtain ⟨hroom, hlt, -⟩ := blockSize_spec hn hdvd
  unfold arenaGrow
  generalize blockSize n = len at hroom hlt
  rcases mmap_cases h len with ⟨as, hmap⟩ | ⟨base, as, hfresh, hmap⟩
  · exact Or.inl ⟨by rw [hmap], as, by rw [hmap]⟩
  · right
    refine ⟨by simp [hmap], ?_⟩
    simp only [hmap]
    obtain ⟨-, hbase, hfin, hblocks⟩ := hfresh
    rw [Block.finish] at hfin
    dsimp only at hfin
    have hstored := stored_cons.mp (stored_initBlock (m := store h.mem base (List.replicate len 0))
      hbase (by omega) hlt)
    obtain ⟨-, -, hsize, -, hlast⟩ := hstored
    have hnext := stored_nil.mp hlast
    dsimp only at hsize hnext
    -- the chunks of the heap lie in the old blocks
    have hapart : ∀ d ∈ R, base + len ≤ d ∨ d + sizeofChunk + get h.mem d .size ≤ base := by
      intro d hd
      by_contra hover
      rw [not_or, not_le, not_le] at hover
      obtain ⟨b, hb, hlo, hhi⟩ := hs.mapped d hd (max d base) (by omega) (by
        rw [sizeofChunk] at *
        omega)
      have := hblocks b hb
      rw [Block.finish] at this
      dsimp only at this
      omega
    have hframe : ∀ x, x < base ∨ base + len ≤ x →
        initBlock (store h.mem base (List.replicate len 0)) base len x = h.mem x := by
      intro x hx
      have hout : x < base ∨ base + sizeofChunk ≤ x := by
        rw [sizeofChunk]
        omega
      simp only [initBlock]
      rw [set_of_not_mem hout, set_of_not_mem hout, set_of_not_mem hout,
        store_of_not_mem (by rw [List.length_replicate]; omega)]
    have hother : ∀ d ∈ R, ∀ f,
        get (initBlock (store h.mem base (List.replicate len 0)) base len) d f =
          get h.mem d f := by
      intro d hd f
      have := hapart d hd
      exact get_congr fun x hx hx' => hframe x (by omega)
    refine ⟨base, _, rfl, fun hin => ?_, rfl, ⟨?_, ?_, ?_, ?_, ?_⟩, ?_, hother⟩
    · have := hapart base hin
      rw [sizeofChunk] at this
      omega
    · exact hs.head.imp id Or.inr
    · rintro d (rfl | hd)
      · exact Or.inl hnext
      · dsimp only
        rw [hother d hd]
        exact (hs.next d hd).imp id Or.inr
    · rintro x (rfl | hx) y (rfl | hy) hne
      · exact absurd rfl hne
      · have := hapart y hy
        dsimp only
        rw [hsize, hother y hy, sizeofChunk]
        rw [sizeofChunk] at this
        omega
      · have := hapart x hx
        dsimp only
        rw [hsize, hother x hx, sizeofChunk]
        rw [sizeofChunk] at this
        omega
      · dsimp only
        rw [hother x hx, hother y hy]
        exact hs.apart x hx y hy hne
    · rintro d (rfl | hd) x hlo hhi
      all_goals dsimp only at hhi
      · rw [hsize, sizeofChunk] at hhi
        refine ⟨⟨d, len⟩, List.mem_cons_self, hlo, ?_⟩
        rw [Block.finish]
        dsimp only
        omega
      · rw [hother d hd] at hhi
        obtain ⟨b, hb, hin⟩ := hs.mapped d hd x hlo hhi
        exact ⟨b, List.mem_cons_of_mem _ hb, hin⟩
    · intro b hb
      rcases List.mem_cons.mp hb with rfl | hb
      · exact ⟨hbase, hfin⟩
      · exact hs.blocks b hb
    · dsimp only
      rw [hsize, sizeofChunk]
      omega

/-- After `arena_init` there is a chunk, unless it fails. -/
lemma sound_arenaInit (hs : Sound h R) (hinit : ¬InitFails h) :
    ∃ R', Sound (arenaInit h) R' ∧ R ⊆ R' ∧ (arenaInit h).gHead ∈ R' ∧
      ∀ d ∈ R, ∀ f, get (arenaInit h).mem d f = get h.mem d f := by
  unfold arenaInit
  by_cases hnull : h.gHead = 0
  · rw [if_neg (not_not_intro hnull)]
    rcases sound_arenaGrow (n := 0) hs (by decide) (by decide) with
      ⟨hnone, -⟩ | ⟨-, c, h', hgrow, -, -, hs', -, hother⟩
    · exact absurd ⟨hnull, hnone⟩ hinit
    · rw [hgrow]
      exact ⟨insert c R, ⟨Or.inr (Or.inl rfl), hs'.next, hs'.apart, hs'.mapped, hs'.blocks⟩,
        Set.subset_insert _ _, Or.inl rfl, hother⟩
  · rw [if_pos hnull]
    exact ⟨R, hs, subset_rfl, hs.head.resolve_left hnull, fun _ _ _ => rfl⟩

/-- A link changes no other member. -/
lemma Sound.get_link (hs : Sound h R) (hc : c ∈ R) {x : ℕ} (hx : x ∈ R) {f : Field}
    (hf : f ≠ .next) : get (set h.mem c .next d) x f = get h.mem x f := by
  by_cases hxc : x = c
  · rw [hxc, get_set_ne hf]
  · exact get_set_apart (hs.headers hx hc hxc)

/-- A new block linked behind a chunk. -/
lemma sound_link (hs : Sound h R) (hc : c ∈ R) (hd : d ∈ R) :
    Sound { h with mem := set h.mem c .next d } R where
  head := hs.head
  next x hx := by
    have hlt : d < 256 ^ Field.next.width := by
      have := (hs.bounds hd).2
      simp only [Field.width]
      omega
    dsimp only
    by_cases hxc : x = c
    · rw [hxc, get_set_same hlt]
      exact Or.inr hd
    · rw [get_set_apart (hs.headers hx hc hxc)]
      exact hs.next x hx
  apart x hx y hy hne := by
    dsimp only
    rw [hs.get_link hc hx (by decide), hs.get_link hc hy (by decide)]
    exact hs.apart x hx y hy hne
  mapped x hx y hlo hhi := by
    dsimp only at hhi
    rw [hs.get_link hc hx (by decide)] at hhi
    exact hs.mapped x hx y hlo hhi
  blocks := hs.blocks

/-! ## `malloc_nolock` -/

/-- The blocks that a call may add lie in the user's half of the address space. -/
lemma arenaGrow_any (h : Heap) (n : ℕ) (hblocks : ∀ b ∈ h.blocks, b.finish ≤ 2 ^ 47) :
    ((mmap h (blockSize n)).1 = none ∧ ∃ as, arenaGrow h n = (0, { h with answers := as })) ∨
    ((mmap h (blockSize n)).1 ≠ none ∧ ∃ c h', arenaGrow h n = (c, h') ∧ c ≠ 0 ∧ c ≤ 2 ^ 47 ∧
      ∀ b ∈ h'.blocks, b.finish ≤ 2 ^ 47) := by
  unfold arenaGrow
  generalize blockSize n = len
  rcases mmap_cases h len with ⟨as, hmap⟩ | ⟨base, as, hfresh, hmap⟩
  · exact Or.inl ⟨by rw [hmap], as, by rw [hmap]⟩
  · right
    refine ⟨by simp [hmap], ?_⟩
    simp only [hmap]
    obtain ⟨-, hbase, hfin, -⟩ := hfresh
    refine ⟨base, _, rfl, hbase, ?_, fun b hb => ?_⟩
    · rw [Block.finish] at hfin
      dsimp only at hfin
      omega
    · rcases List.mem_cons.mp hb with rfl | hb
      · exact hfin
      · exact hblocks b hb

/-- **`malloc_nolock` returns `NULL`** just if nothing has room for what it looks for. -/
lemma mallocNolock_cases (hs : Sound h R) (hinit : ¬InitFails h) (size : ℕ) :
    (NoRoom (arenaInit h) size ∧ ∃ h', mallocNolock h size = some (0, h')) ∨
    (¬NoRoom (arenaInit h) size ∧ ∃ p h', mallocNolock h size = some (p, h') ∧
      sizeofChunk < p ∧ p ≤ 2 ^ 47 + sizeofChunk ∧ ∀ b ∈ h'.blocks, b.finish ≤ 2 ^ 47) := by
  obtain ⟨R₁, hs₁, -, hhead, -⟩ := sound_arenaInit hs hinit
  have hne := (hs₁.bounds hhead).1
  unfold mallocNolock NoRoom
  dsimp only
  generalize roundSize size = n
  generalize arenaInit h = h₁ at hs₁ hhead hne
  cases hfind : findFit h₁.mem n chunkScanLimit h₁.gHead with
  | some c =>
    obtain ⟨hc, -, -⟩ := findFit_some hs₁ (Or.inr hhead) hfind
    have hbounds := hs₁.bounds hc
    refine Or.inr ⟨fun hno => Option.some_ne_none c hno.1, _, _, rfl, by omega, by omega,
      fun b hb => (hs₁.blocks b hb).2⟩
  | none =>
    dsimp only
    rw [if_neg hne]
    rcases arenaGrow_any h₁ n (fun b hb => (hs₁.blocks b hb).2) with
      ⟨hnone, as, hgrow⟩ | ⟨hgives, c, h', hgrow, hc, hle, hblocks⟩
    · rw [hgrow, if_pos rfl]
      exact Or.inl ⟨⟨rfl, hnone⟩, _, rfl⟩
    · rw [hgrow]
      dsimp only
      rw [if_neg hc]
      exact Or.inr ⟨fun hno => hgives hno.2, _, _, rfl, by omega, by omega, hblocks⟩

/-- **`malloc_nolock`** finds or makes a chunk of the size it rounds to, or returns `NULL`. -/
theorem mallocNolock_rounded (hs : Sound h R) (hdvd : 16 ∣ roundSize size)
    (hround : roundSize size + splitRoom < 2 ^ 64) (hinit : ¬InitFails h) :
    ∃ p h', mallocNolock h size = some (p, h') ∧ (p = 0 ∨ ∃ R', Sound h' R' ∧ R ⊆ R' ∧
      InUse h' R' p ∧ roundSize size ≤ payloadSize h' p ∧
      payloadSize h' p < roundSize size + splitRoom ∧
      ∀ d ∈ R, get h.mem d .free = 0 →
        d + sizeofChunk ≠ p ∧ ∀ f, f ≠ .next → get h'.mem d f = get h.mem d f) := by
  obtain ⟨R₁, hs₁, hsub, hhead, hsame⟩ := sound_arenaInit hs hinit
  unfold mallocNolock
  dsimp only
  generalize roundSize size = n at hdvd hround ⊢
  generalize arenaInit h = h₁ at hs₁ hhead hsame
  -- either way a chunk is handed out in the end
  have htake : ∀ (h₂ : Heap) (R₂ : Set ℕ) (c : ℕ), Sound h₂ R₂ → c ∈ R₂ → R ⊆ R₂ →
      n ≤ get h₂.mem c .size → (∀ d ∈ R, get h.mem d .free = 0 →
        d ≠ c ∧ ∀ f, f ≠ .next → get h₂.mem d f = get h.mem d f) →
      ∃ R', Sound { h₂ with mem := takeChunk h₂.mem c n } R' ∧ R ⊆ R' ∧
        InUse { h₂ with mem := takeChunk h₂.mem c n } R' (c + sizeofChunk) ∧
        n ≤ payloadSize { h₂ with mem := takeChunk h₂.mem c n } (c + sizeofChunk) ∧
        payloadSize { h₂ with mem := takeChunk h₂.mem c n } (c + sizeofChunk) < n + splitRoom ∧
        ∀ d ∈ R, get h.mem d .free = 0 → d + sizeofChunk ≠ c + sizeofChunk ∧
          ∀ f, f ≠ .next → get (takeChunk h₂.mem c n) d f = get h.mem d f := by
    intro h₂ R₂ c hs₂ hc hsub₂ hroom hkept
    obtain ⟨R', hs', hsub', hfree, hlo, hhi, hother⟩ := sound_takeChunk hs₂ hc hroom hround
    refine ⟨R', hs', hsub₂.trans hsub', ⟨?_, ?_, ?_⟩, ?_, ?_, fun d hd hdf => ?_⟩
    · omega
    · rw [Nat.add_sub_cancel]
      exact hsub' hc
    · rw [Nat.add_sub_cancel]
      exact hfree
    · rw [payloadSize, Nat.add_sub_cancel]
      exact hlo
    · rw [payloadSize, Nat.add_sub_cancel]
      exact hhi
    · obtain ⟨hne, hget⟩ := hkept d hd hdf
      refine ⟨by omega, fun f hf => ?_⟩
      rw [hother d (hsub₂ hd) hne]
      exact hget f hf
  cases hfind : findFit h₁.mem n chunkScanLimit h₁.gHead with
  | some c =>
    obtain ⟨hc, hfree, hroom⟩ := findFit_some hs₁ (Or.inr hhead) hfind
    refine ⟨_, _, rfl, Or.inr (htake h₁ R₁ c hs₁ hc hsub hroom fun d hd hdf => ?_)⟩
    refine ⟨fun heq => hfree ?_, fun f _ => hsame d hd f⟩
    rw [← heq, hsame d hd]
    exact hdf
  | none =>
    dsimp only
    rw [if_neg (hs₁.bounds hhead).1]
    rcases sound_arenaGrow hs₁ (by rw [splitRoom] at hround; omega) hdvd with
      ⟨-, as, hgrow⟩ | ⟨-, c, h₂, hgrow, hnew, -, hs₂, hroom, hother⟩
    · rw [hgrow, if_pos rfl]
      exact ⟨_, _, rfl, Or.inl rfl⟩
    · rw [hgrow]
      dsimp only
      rw [if_neg (hs₂.bounds (Or.inl rfl)).1]
      have htail : walkTail h₁.mem chunkScanLimit h₁.gHead ∈ insert c R₁ :=
        Or.inr (walkTail_mem hs₁ hhead)
      generalize walkTail h₁.mem chunkScanLimit h₁.gHead = tail at htail
      refine ⟨_, _, rfl, Or.inr (htake { h₂ with mem := set h₂.mem tail .next c } _ c
        (sound_link hs₂ htail (Or.inl rfl)) (Or.inl rfl) (hsub.trans (Set.subset_insert _ _)) ?_
        fun d hd hdf => ⟨?_, fun f hf => ?_⟩)⟩
      · dsimp only
        rw [hs₂.get_link htail (Or.inl rfl) (by decide)]
        exact hroom
      · rintro rfl
        exact hnew (hsub hd)
      · dsimp only
        rw [hs₂.get_link htail (Or.inr (hsub hd)) hf, hother d (hsub hd), hsame d hd]

/-- **`malloc_nolock`** serves a request that does not wrap with a chunk of the heap, or returns
`NULL`. -/
theorem mallocNolock_sound (hs : Sound h R) (hsize : size + 48 ≤ 2 ^ 64) (hinit : ¬InitFails h) :
    ∃ p h', mallocNolock h size = some (p, h') ∧ (p = 0 ∨ ∃ R', Sound h' R' ∧ R ⊆ R' ∧
      InUse h' R' p ∧ size ≤ payloadSize h' p ∧ ∀ d ∈ R, get h.mem d .free = 0 →
        d + sizeofChunk ≠ p ∧ ∀ f, f ≠ .next → get h'.mem d f = get h.mem d f) := by
  obtain ⟨hle, hdvd, hround⟩ := roundSize_spec hsize
  obtain ⟨p, h', hcall, hp⟩ := mallocNolock_rounded hs hdvd hround hinit
  refine ⟨p, h', hcall, hp.imp id ?_⟩
  rintro ⟨R', hs', hsub, huse, hroom, -, hkept⟩
  exact ⟨R', hs', hsub, huse, hle.trans hroom, hkept⟩

end

end Asteros.Malloc
