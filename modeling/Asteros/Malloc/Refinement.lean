import Asteros.Malloc.Stored

set_option autoImplicit false

/-!
# The writes of the allocator

What the writes of `malloc.c` do to a list of chunks in memory: handing out a chunk, joining two
neighbours and the loop that does so, and linking a new chunk to the end. Each leaves the memory
with the list that `ChunkList` says.

## Main results

* `stored_takeChunk` — the split at the end of `malloc_nolock`.
* `stored_carve` — the header that `aligned_alloc` places.
* `stored_coalesce` — the loop of `free_nolock`.
* `stored_link` — `tail->next = fresh`.
-/

namespace Asteros.Malloc

open LinkedList Tiling Asteros.Libc ByteMemory

section

variable {bs : List Block} {m : ℕ → UInt8} {p n x : ℕ} {cs left right : List Chunk} {c d : Chunk}

/-! ## Handing out a chunk -/

/-- The room for a split is computed without a carry. -/
lemma sizeAdd_splitRoom (hn : n + splitRoom < 2 ^ 64) :
    sizeAdd (sizeAdd n sizeofChunk) 8 = n + splitRoom := by
  rw [splitRoom] at hn ⊢
  have hinner : sizeAdd n sizeofChunk = n + sizeofChunk := sizeAdd_of_lt (by omega)
  rw [hinner, sizeAdd_of_lt (by omega), Nat.add_assoc]

/-- The header of the rest lies behind the payload. -/
lemma sizeAdd_payload (hfin : c.finish < 2 ^ 64) (hfit : n + splitRoom ≤ c.size) :
    sizeAdd (c.addr + sizeofChunk) n = c.addr + sizeofChunk + n := by
  rw [Chunk.finish] at hfin
  exact sizeAdd_of_lt (by omega)

/-- Splitting and handing out a chunk writes to the headers of the chunks it is cut into. -/
lemma takeChunk_frame (hsize : get m c.addr .size = c.size) (hfin : c.finish < 2 ^ 64)
    (hn : n + splitRoom < 2 ^ 64)
    (hx : ∀ u ∈ splitChunk n c, x < u.addr ∨ u.addr + sizeofChunk ≤ x) :
    takeChunk m c.addr n x = m x := by
  unfold takeChunk
  unfold splitChunk at hx
  rw [sizeAdd_splitRoom hn, hsize]
  split at hx
  · next hfit =>
    rw [sizeAdd_payload hfin hfit]
    simp only [List.mem_cons, List.not_mem_nil, or_false, forall_eq_or_imp, forall_eq] at hx
    simp only [if_pos hfit]
    repeat rw [set_of_not_mem (by omega)]
  · next hfit =>
    simp only [List.mem_singleton, forall_eq] at hx
    simp only [if_neg hfit]
    exact set_of_not_mem hx

/-- The headers that handing out a chunk leaves. -/
lemma get_takeChunk (hsize : get m c.addr .size = c.size) (hfin : c.finish < 2 ^ 64)
    (hn : n + splitRoom < 2 ^ 64) :
    (∀ u ∈ splitChunk n c, get (takeChunk m c.addr n) u.addr .size = u.size) ∧
      (∀ u ∈ splitChunk n c, get (takeChunk m c.addr n) u.addr .free = u.free.toNat) := by
  unfold takeChunk splitChunk
  rw [sizeAdd_splitRoom hn, hsize]
  have hrest : n + splitRoom ≤ c.size →
      sizeAdd (c.addr + sizeofChunk) n = c.addr + sizeofChunk + n := sizeAdd_payload hfin
  rw [Chunk.finish] at hfin
  rw [splitRoom] at hn hrest ⊢
  split
  · next hfit =>
    rw [hrest hfit]
    have hrem : sizeSub (sizeSub c.size n) sizeofChunk = c.size - n - sizeofChunk := by
      rw [sizeSub_of_le (a := c.size) (by omega) (by omega), sizeSub_of_le (by omega) (by omega)]
    have hsz : n < 256 ^ Field.size.width := by
      simp only [Field.width]
      omega
    have hrest : c.size - n - sizeofChunk < 256 ^ Field.size.width := by
      simp only [Field.width]
      omega
    simp only [hrem, List.mem_cons, List.not_mem_nil, or_false, forall_eq_or_imp, forall_eq]
    simp (disch := first | omega | assumption | decide) [get_set_apart]
  · next hfit =>
    simp (disch := first | omega | assumption | decide) [hsize]

/-- The links through the headers that handing out a chunk leaves. -/
lemma links_takeChunk (hsize : get m c.addr .size = c.size) (hfin : c.finish < 2 ^ 64)
    (hn : n + splitRoom < 2 ^ 64) {a b : ℕ}
    (h : IsSeg 0 (fun x => get m x .next) a [c.addr] b) :
    IsSeg 0 (fun x => get (takeChunk m c.addr n) x .next) a
      ((splitChunk n c).map Chunk.addr) b := by
  obtain ⟨rfl, hne, rfl⟩ := h
  have hnext : get m c.addr .next < 256 ^ Field.next.width := loadNat_lt _ _ _
  unfold takeChunk splitChunk
  rw [sizeAdd_splitRoom hn, hsize]
  have hrest : n + splitRoom ≤ c.size →
      sizeAdd (c.addr + sizeofChunk) n = c.addr + sizeofChunk + n := sizeAdd_payload hfin
  rw [Chunk.finish] at hfin
  rw [splitRoom] at hn hrest ⊢
  split
  · next hfit =>
    rw [hrest hfit]
    have hrem : c.addr + sizeofChunk + n < 256 ^ Field.next.width := by
      simp only [Field.width]
      omega
    refine ⟨rfl, hne, ?_, by show c.addr + sizeofChunk + n ≠ 0; omega, ?_⟩
    · simp (disch := first | omega | assumption | decide) [get_set_apart]
    · show get _ (c.addr + sizeofChunk + n) .next = get m c.addr .next
      simp (disch := first | omega | assumption | decide) [get_set_apart]
  · next hfit =>
    refine ⟨rfl, hne, ?_⟩
    show get _ c.addr .next = get m c.addr .next
    simp (disch := decide)

/-- **Handing out a chunk**: the memory holds the list with the chunk split. -/
theorem stored_takeChunk (h : Stored m p (left ++ [c] ++ right))
    (hl : Layout bs (left ++ [c] ++ right)) (hn : n + splitRoom < 2 ^ 64) :
    Stored (takeChunk m c.addr n) p (left ++ splitChunk n c ++ right) := by
  have hsize := h.size c (by simp)
  have hfin : c.finish < 2 ^ 64 := (hl.bounds (by simp)).2
  obtain ⟨hsizes, hfrees⟩ := get_takeChunk hsize hfin hn
  exact h.recut hl (recut_splitChunk n c) (fun _ hx => takeChunk_frame hsize hfin hn hx)
    (fun a b hab => links_takeChunk hsize hfin hn hab) hsizes hfrees

/-! ## Carving a chunk -/

/-- Carving a chunk writes to the headers of the two chunks it leaves. -/
lemma carve_frame {orig newc : ℕ} (horig : x < orig ∨ orig + sizeofChunk ≤ x)
    (hnewc : x < newc ∨ newc + sizeofChunk ≤ x) : carve m orig newc x = m x := by
  unfold carve
  rw [set_of_not_mem horig, set_of_not_mem horig, set_of_not_mem horig, set_of_not_mem hnewc,
    set_of_not_mem hnewc, set_of_not_mem hnewc]

/-- **Carving a chunk**: the memory holds the list with the slack as a free chunk in front. -/
theorem stored_carve (h : Stored m p (left ++ [c] ++ right))
    (hl : Layout bs (left ++ [c] ++ right)) (hn : n + sizeofChunk ≤ c.size) :
    Stored (carve m c.addr (c.addr + sizeofChunk + n)) p
      (left ++ [⟨c.addr, n, true⟩, ⟨c.addr + sizeofChunk + n, c.size - n - sizeofChunk, false⟩] ++
        right) := by
  have hsize := h.size c (by simp)
  have hfin := (hl.bounds (c := c) (by simp)).2
  have hfront : sizeSub (c.addr + sizeofChunk + n) c.addr = sizeofChunk + n := by
    rw [sizeSub_of_le (by omega) (by omega)]
    omega
  have hback : sizeSub c.size (sizeofChunk + n) = c.size - n - sizeofChunk := by
    rw [sizeSub_of_le (by omega) (by omega)]
    omega
  have hslack : sizeSub (sizeofChunk + n) sizeofChunk = n := by
    rw [sizeSub_of_le (by omega) (by omega)]
    omega
  have hsz : n < 256 ^ Field.size.width := by
    simp only [Field.width]
    omega
  have hrest : c.size - n - sizeofChunk < 256 ^ Field.size.width := by
    simp only [Field.width]
    omega
  have hnewc : c.addr + sizeofChunk + n < 256 ^ Field.next.width := by
    simp only [Field.width]
    omega
  have hnext : get m c.addr .next < 256 ^ Field.next.width := loadNat_lt _ _ _
  refine h.recut hl (recut_split hn _ _) (fun x hx => ?_) (fun a b hab => ?_) ?_ ?_
  · simp only [List.mem_cons, List.not_mem_nil, or_false, forall_eq_or_imp, forall_eq] at hx
    exact carve_frame hx.1 hx.2
  · obtain ⟨rfl, hne, rfl⟩ := hab
    refine ⟨rfl, hne, ?_, by show c.addr + sizeofChunk + n ≠ 0; omega, ?_⟩
    · simp (disch := first | omega | assumption | decide) [carve]
    · show get _ (c.addr + sizeofChunk + n) .next = get m c.addr .next
      simp (disch := first | omega | assumption | decide) [carve, get_set_apart]
  · simp only [List.mem_cons, List.not_mem_nil, or_false, forall_eq_or_imp, forall_eq, carve,
      hsize, hfront, hback, hslack]
    simp (disch := first | omega | assumption | decide) [get_set_apart]
  · simp only [List.mem_cons, List.not_mem_nil, or_false, forall_eq_or_imp, forall_eq, carve]
    simp (disch := first | omega | assumption | decide) [get_set_apart]

/-! ## Coalescing -/

/-- Setting the flag of a chunk. -/
lemma stored_free (h : Stored m p (left ++ [c] ++ right)) (hl : Layout bs (left ++ [c] ++ right)) :
    Stored (set m c.addr .free 1) p (left ++ [{ c with free := true }] ++ right) := by
  have hsize := h.size c (by simp)
  refine h.recut hl (recut_flag c true) (fun x hx => ?_) (fun a b hab => ?_) (fun u hu => ?_)
    fun u hu => ?_
  · exact set_of_not_mem (by simpa using hx)
  · obtain ⟨rfl, hne, rfl⟩ := hab
    exact ⟨rfl, hne, get_set_ne (by decide)⟩
  · obtain rfl := List.mem_singleton.mp hu
    rw [get_set_ne (by decide)]
    exact hsize
  · obtain rfl := List.mem_singleton.mp hu
    exact get_set_same (by decide)

/-- The write that joins two chunks. -/
def joinChunks (m : ℕ → UInt8) (p : ℕ) : ℕ → UInt8 :=
  let next := get m p .next
  let m := set m p .size (sizeAdd (get m p .size) (sizeAdd sizeofChunk (get m next .size)))
  set m p .next (get m next .next)

/-- Joining two chunks writes to the header of the first. -/
lemma joinChunks_frame (hx : x < p ∨ p + sizeofChunk ≤ x) : joinChunks m p x = m x := by
  unfold joinChunks
  rw [set_of_not_mem hx, set_of_not_mem hx]

/-- The link between two neighbours of the list. -/
lemma Stored.next_eq (h : Stored m p (left ++ [c, d] ++ right)) : get m c.addr .next = d.addr := by
  have hlinks := h.links
  simp only [List.map_append, List.append_assoc] at hlinks
  obtain ⟨a, -, -, -, hd, -⟩ := isSeg_append.mp hlinks
  exact hd

/-- **Joining two free chunks**: the memory holds the list with one chunk for both. -/
lemma stored_joinChunks (h : Stored m p (left ++ [c, d] ++ right))
    (hl : Layout bs (left ++ [c, d] ++ right)) (hc : c.free = true) (hadj : c.finish = d.addr) :
    Stored (joinChunks m c.addr) p
      (left ++ [⟨c.addr, c.size + (sizeofChunk + d.size), true⟩] ++ right) := by
  have hfin := (hl.bounds (c := d) (by simp)).2
  have hcsize := h.size c (by simp)
  have hdsize := h.size d (by simp)
  have hcfree := h.free c (by simp)
  have hnext := h.next_eq
  rw [← hadj, Chunk.finish] at hfin
  have hapart : c.addr + sizeofChunk ≤ d.addr := by
    rw [← hadj, Chunk.finish]
    omega
  have hinner : sizeAdd sizeofChunk d.size = sizeofChunk + d.size := sizeAdd_of_lt (by omega)
  have hsum : sizeAdd c.size (sizeofChunk + d.size) = c.size + (sizeofChunk + d.size) :=
    sizeAdd_of_lt (by omega)
  have hlt : c.size + (sizeofChunk + d.size) < 256 ^ Field.size.width := by
    simp only [Field.width]
    omega
  have hdnext : get m d.addr .next < 256 ^ Field.next.width := loadNat_lt _ _ _
  refine h.recut hl (recut_merge hadj true) (fun x hx => ?_) (fun a b hab => ?_)
    (fun u hu => ?_) fun u hu => ?_
  · exact joinChunks_frame (by simpa using hx)
  · obtain ⟨rfl, hne, -, -, rfl⟩ := hab
    refine ⟨rfl, hne, ?_⟩
    show get (joinChunks m c.addr) c.addr .next = get m d.addr .next
    simp only [joinChunks, hnext, hcsize, hdsize, hinner, hsum]
    simp (disch := first | omega | assumption | decide) [get_set_apart]
  · obtain rfl := List.mem_singleton.mp hu
    simp only [joinChunks, hnext, hcsize, hdsize, hinner, hsum]
    simp (disch := first | omega | assumption | decide) [get_set_apart]
  · obtain rfl := List.mem_singleton.mp hu
    simp only [joinChunks, hnext, hcsize, hdsize, hinner, hsum]
    simp (disch := first | omega | assumption | decide) [hcfree, hc]

/-- The chunks from one on. -/
lemma Stored.suffix (h : Stored m p (left ++ c :: cs)) : Stored m c.addr (c :: cs) := by
  refine ⟨?_, fun d hd => h.size d (List.mem_append_right _ hd),
    fun d hd => h.free d (List.mem_append_right _ hd)⟩
  have hlinks := h.links
  rw [List.map_append] at hlinks
  obtain ⟨a, -, ha⟩ := isSeg_append.mp hlinks
  exact ⟨rfl, ha.2⟩

/-- One turn of the loop of `free_nolock`. -/
lemma coalesce_succ {fuel : ℕ} (hp : p ≠ 0) (hnext : get m p .next ≠ 0) :
    coalesce (fuel + 1) p m =
      let m' := if get m p .free ≠ 0 ∧ get m (get m p .next) .free ≠ 0 ∧
          p + sizeofChunk + get m p .size = get m p .next then joinChunks m p else m
      coalesce fuel (get m' p .next) m' := by
  rw [coalesce, if_neg hp, if_neg hnext]
  rfl

/-- What the loop of `free_nolock` asks of a chunk and the next one. -/
lemma joins_iff (h : Stored m p (c :: d :: cs)) :
    (get m c.addr .free ≠ 0 ∧ get m d.addr .free ≠ 0 ∧
      c.addr + sizeofChunk + get m c.addr .size = d.addr) ↔
      (c.free ∧ d.free ∧ c.finish = d.addr) := by
  rw [h.free c (by simp), h.free d (by simp), h.size c (by simp), Chunk.finish]
  cases c.free <;> cases d.free <;> simp

/-- **The loop of `free_nolock`** does to the list in memory what the pass does to the list, and
keeps the chunks that are handed out. -/
theorem stored_coalesce (left : List Chunk) (fuel : ℕ) {head : ℕ} (h : Stored m head (left ++ cs))
    (hl : Layout bs (left ++ cs)) (hp : Stored m p cs) :
    Stored (coalesce fuel p m) head (left ++ mergePass fuel cs) ∧
      Kept m (coalesce fuel p m) (left ++ cs) (left ++ mergePass fuel cs) := by
  induction fuel, cs using mergePass.induct generalizing left p m with
  | case1 cs => exact ⟨h, Kept.refl⟩
  | case2 fuel =>
    obtain rfl := stored_nil.mp hp
    exact ⟨h, Kept.refl⟩
  | case3 fuel c =>
    obtain ⟨rfl, hne, -, -, hrest⟩ := stored_cons.mp hp
    have hnull := stored_nil.mp hrest
    rw [coalesce, if_neg hne, if_pos hnull]
    exact ⟨h, Kept.refl⟩
  | case4 fuel c d cs hmerge ih =>
    have hjoins := (joins_iff hp).mpr hmerge
    obtain ⟨rfl, hne, -, -, hrest⟩ := stored_cons.mp hp
    obtain ⟨hnext, hdne, -⟩ := stored_cons.mp hrest
    have h₁ : Stored m head (left ++ [c, d] ++ cs) := by simpa using h
    have hl₁ : Layout bs (left ++ [c, d] ++ cs) := by simpa using hl
    have h₂ := stored_joinChunks h₁ hl₁ hmerge.1 hmerge.2.2
    have hl₂ := hl₁.merge hmerge.2.2 true
    have hrest₂ := stored_cons.mp (Stored.suffix (by simpa using h₂))
    have hkept : Kept m (joinChunks m c.addr) (left ++ [c, d] ++ cs)
        (left ++ [⟨c.addr, c.size + (sizeofChunk + d.size), true⟩] ++ cs) := by
      refine hl₁.kept_recut (recut_merge hmerge.2.2 true) (fun x hx => ?_) fun t ht => ?_
      · exact joinChunks_frame (by simpa using hx)
      · simp only [List.mem_cons, List.not_mem_nil, or_false] at ht
        rcases ht with rfl | rfl
        · exact hmerge.1
        · exact hmerge.2.1
    obtain ⟨hstored, hkept'⟩ := ih _ h₂ hl₂ hrest₂.2.2.2.2
    rw [coalesce_succ hne (by rw [hnext]; exact hdne), hnext, if_pos hjoins, mergePass,
      if_pos hmerge]
    simp only [List.append_assoc, List.cons_append, List.nil_append] at hstored hkept hkept'
    exact ⟨hstored, hkept.trans hkept'⟩
  | case5 fuel c d cs hmerge ih =>
    have hjoins := (joins_iff hp).not.mpr hmerge
    obtain ⟨rfl, hne, -, -, hrest⟩ := stored_cons.mp hp
    obtain ⟨hnext, hdne, -⟩ := stored_cons.mp hrest
    have h₁ : Stored m head ((left ++ [c]) ++ d :: cs) := by simpa using h
    have hl₁ : Layout bs ((left ++ [c]) ++ d :: cs) := by simpa using hl
    obtain ⟨hstored, hkept⟩ := ih _ h₁ hl₁ hrest
    rw [coalesce_succ hne (by rw [hnext]; exact hdne), hnext, if_neg hjoins, mergePass,
      if_neg hmerge]
    simp only [List.append_assoc, List.cons_append, List.nil_append] at hstored hkept
    exact ⟨hstored, hkept⟩

/-! ## The end of the list -/

/-- **Linking a new chunk to the end** of the list. -/
theorem stored_link (h : Stored m p (cs ++ [c])) (hl : Layout bs (cs ++ [c] ++ [d]))
    (hsize : get m d.addr .size = d.size) (hfree : get m d.addr .free = d.free.toNat)
    (hnext : get m d.addr .next = 0) :
    Stored (set m c.addr .next d.addr) p (cs ++ [c] ++ [d]) := by
  have hbounds := hl.bounds (c := d) (by simp)
  have hd : d.addr < 256 ^ Field.next.width := by
    simp only [Field.width]
    omega
  have hother : ∀ e ∈ cs ++ [d], ∀ f,
      get (set m c.addr .next d.addr) e.addr f = get m e.addr f := by
    intro e he f
    have hapart := Chunk.apart_of_disjoint (hl.tiles.disjoint_of_mem_beside
      (List.mem_singleton_self c) he)
    simp only [Chunk.finish] at hapart
    exact get_set_apart (by omega)
  refine ⟨?_, fun e he => ?_, fun e he => ?_⟩
  · have hlinks := h.links
    simp only [List.map_append, List.map_cons, List.map_nil, List.append_assoc] at hlinks ⊢
    refine hlinks.insertAfter hbounds.1 (get_set_same hd) ?_ fun y hy => ?_
    · have hlast : get m c.addr .next = 0 := by
        obtain ⟨-, -, -, -, hend⟩ := isSeg_append.mp hlinks
        exact hend
      rw [hother d (by simp), hnext, hlast]
    · rw [List.append_nil] at hy
      obtain ⟨e, he, rfl⟩ := List.mem_map.mp hy
      exact hother e (List.mem_append_left _ he) .next
  · rcases List.mem_append.mp he with he | he
    · rcases List.mem_append.mp he with he | he
      · rw [hother e (by simp [he])]
        exact h.size e (by simp [he])
      · obtain rfl := List.mem_singleton.mp he
        rw [get_set_ne (by decide)]
        exact h.size e (by simp)
    · obtain rfl := List.mem_singleton.mp he
      rw [hother e (by simp)]
      exact hsize
  · rcases List.mem_append.mp he with he | he
    · rcases List.mem_append.mp he with he | he
      · rw [hother e (by simp [he])]
        exact h.free e (by simp [he])
      · obtain rfl := List.mem_singleton.mp he
        rw [get_set_ne (by decide)]
        exact h.free e (by simp)
    · obtain rfl := List.mem_singleton.mp he
      rw [hother e (by simp)]
      exact hfree

end

end Asteros.Malloc
