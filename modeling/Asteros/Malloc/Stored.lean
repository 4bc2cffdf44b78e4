import Asteros.Lib.LinkedList
import Asteros.Malloc.ChunkList

set_option autoImplicit false

/-!
# A list of chunks in memory

The memory holds a list of chunks when the `next` members lead through their headers and the other
members say what the chunks are. Only the headers matter, so a program may write to the payloads,
and a chunk that is handed out keeps its payload while the allocator works on other chunks.

## Main definitions

* `Stored` — the memory holds the list.
* `Kept` — the chunks that are handed out stay, with the bytes of their payloads.

## Main results

* `Stored.recut` — when some chunks are cut anew and only their headers are written, the memory
  holds the new list.
* `findFit_eq`, `walkTail_eq`, `stored_takeChunk`, `stored_coalesce` — the loops and the split
  refine the list.
-/

namespace Asteros.Malloc

open LinkedList Tiling

/-- The memory holds the list of chunks that begins at `p`. -/
structure Stored (m : ℕ → UInt8) (p : ℕ) (cs : List Chunk) : Prop where
  /-- The links lead through the headers, and end in `NULL`. -/
  links : IsSeg 0 (fun c => get m c .next) p (cs.map Chunk.addr) 0
  /-- The sizes. -/
  size : ∀ c ∈ cs, get m c.addr .size = c.size
  /-- The flags. -/
  free : ∀ c ∈ cs, get m c.addr .free = c.free.toNat

/-- The chunks of `cs` that are handed out are in `cs'`, with the same bytes in their payloads. -/
def Kept (m m' : ℕ → UInt8) (cs cs' : List Chunk) : Prop :=
  ∀ c ∈ cs, c.free = false → c ∈ cs' ∧ ∀ x, c.payload ≤ x → x < c.finish → m' x = m x

section

variable {bs : List Block} {m m' m'' : ℕ → UInt8} {p q n x : ℕ}
  {cs cs' cs'' left right ts us : List Chunk} {c d : Chunk}

/-- Nothing happens to the chunks that are handed out. -/
lemma Kept.refl : Kept m m cs cs := fun _ hc _ => ⟨hc, fun _ _ _ => rfl⟩

/-- Two steps keep what each of them keeps. -/
lemma Kept.trans (h : Kept m m' cs cs') (h' : Kept m' m'' cs' cs'') : Kept m m'' cs cs'' := by
  intro c hc hf
  obtain ⟨hc', hbytes⟩ := h c hc hf
  obtain ⟨hc'', hbytes'⟩ := h' c hc' hf
  exact ⟨hc'', fun x hx hx' => (hbytes' x hx hx').trans (hbytes x hx hx')⟩

/-- The empty list is no chunk. -/
lemma stored_nil : Stored m p [] ↔ p = 0 :=
  ⟨fun h => h.links, fun h => ⟨h, by simp, by simp⟩⟩

/-- The first chunk of a list. -/
lemma stored_cons : Stored m p (c :: cs) ↔ p = c.addr ∧ c.addr ≠ 0 ∧ get m c.addr .size = c.size ∧
    get m c.addr .free = c.free.toNat ∧ Stored m (get m c.addr .next) cs := by
  constructor
  · rintro ⟨⟨hp, hne, hrest⟩, hsize, hfree⟩
    refine ⟨hp, hne, hsize c List.mem_cons_self, hfree c List.mem_cons_self, hrest,
      fun d hd => hsize d (List.mem_cons_of_mem _ hd),
      fun d hd => hfree d (List.mem_cons_of_mem _ hd)⟩
  · rintro ⟨hp, hne, hsize, hfree, hrest⟩
    refine ⟨⟨hp, hne, hrest.links⟩, fun d hd => ?_, fun d hd => ?_⟩
    · rcases List.mem_cons.mp hd with rfl | hd
      · exact hsize
      · exact hrest.size d hd
    · rcases List.mem_cons.mp hd with rfl | hd
      · exact hfree
      · exact hrest.free d hd

/-- Only the headers matter. -/
lemma Stored.congr (h : Stored m p cs)
    (hm : ∀ c ∈ cs, ∀ x, c.addr ≤ x → x < c.addr + sizeofChunk → m' x = m x) :
    Stored m' p cs := by
  have hget : ∀ c ∈ cs, ∀ f, get m' c.addr f = get m c.addr f := fun c hc f =>
    get_congr (hm c hc)
  refine ⟨h.links.congr fun a ha => ?_, fun c hc => ?_, fun c hc => ?_⟩
  · obtain ⟨c, hc, rfl⟩ := List.mem_map.mp ha
    exact hget c hc .next
  · rw [hget c hc]
    exact h.size c hc
  · rw [hget c hc]
    exact h.free c hc

/-- The headers of other chunks are untouched by writes to the headers of chunks cut anew, and so
are their payloads. -/
lemma Layout.eq_beside (hl : Layout bs (left ++ ts ++ right)) (hr : Recut Chunk.span ts us)
    (hm : ∀ x, (∀ u ∈ us, x < u.addr ∨ u.addr + sizeofChunk ≤ x) → m' x = m x)
    (hc : c ∈ left ++ right) (hx : c.addr ≤ x) (hx' : x < c.finish) : m' x = m x := by
  refine hm x fun u hu => ?_
  by_contra hin
  have hmem : x ∈ u.span := by
    rw [Chunk.mem_span]
    rw [sizeofChunk] at hin
    omega
  exact hl.tiles.not_mem_of_recut hr hu hmem hc ⟨hx, hx'⟩

/-- **Chunks cut anew** are held by the memory, when only their headers were written and their
links lead on to where the old ones led. -/
theorem Stored.recut (h : Stored m p (left ++ ts ++ right)) (hl : Layout bs (left ++ ts ++ right))
    (hr : Recut Chunk.span ts us)
    (hm : ∀ x, (∀ u ∈ us, x < u.addr ∨ u.addr + sizeofChunk ≤ x) → m' x = m x)
    (hlinks : ∀ a b, IsSeg 0 (fun c => get m c .next) a (ts.map Chunk.addr) b →
      IsSeg 0 (fun c => get m' c .next) a (us.map Chunk.addr) b)
    (hsize : ∀ u ∈ us, get m' u.addr .size = u.size)
    (hfree : ∀ u ∈ us, get m' u.addr .free = u.free.toNat) :
    Stored m' p (left ++ us ++ right) := by
  have hget : ∀ c ∈ left ++ right, ∀ f, get m' c.addr f = get m c.addr f := fun c hc f =>
    get_congr fun x hx hx' => hl.eq_beside hr hm hc hx (by rw [Chunk.finish]; omega)
  have hseg : ∀ l : List Chunk, (∀ c ∈ l, c ∈ left ++ right) → ∀ a b,
      IsSeg 0 (fun c => get m c .next) a (l.map Chunk.addr) b →
      IsSeg 0 (fun c => get m' c .next) a (l.map Chunk.addr) b := by
    intro l hl a b hab
    refine hab.congr fun y hy => ?_
    obtain ⟨c, hc, rfl⟩ := List.mem_map.mp hy
    exact hget c (hl c hc) .next
  refine ⟨?_, fun c hc => ?_, fun c hc => ?_⟩
  · have hlink := h.links
    simp only [List.map_append] at hlink ⊢
    obtain ⟨b, hlt, hright⟩ := isSeg_append.mp hlink
    obtain ⟨a, hleft, hmid⟩ := isSeg_append.mp hlt
    refine isSeg_append.mpr ⟨b, isSeg_append.mpr ⟨a, ?_, hlinks a b hmid⟩, ?_⟩
    · exact hseg left (fun c hc => List.mem_append_left _ hc) p a hleft
    · exact hseg right (fun c hc => List.mem_append_right _ hc) b 0 hright
  · rcases List.mem_append.mp hc with hc | hc
    · rcases List.mem_append.mp hc with hc | hc
      · rw [hget c (by simp [hc])]
        exact h.size c (by simp [hc])
      · exact hsize c hc
    · rw [hget c (by simp [hc])]
      exact h.size c (by simp [hc])
  · rcases List.mem_append.mp hc with hc | hc
    · rcases List.mem_append.mp hc with hc | hc
      · rw [hget c (by simp [hc])]
        exact h.free c (by simp [hc])
      · exact hfree c hc
    · rw [hget c (by simp [hc])]
      exact h.free c (by simp [hc])

/-- Free chunks cut anew keep the chunks that are handed out. -/
lemma Layout.kept_recut (hl : Layout bs (left ++ ts ++ right)) (hr : Recut Chunk.span ts us)
    (hm : ∀ x, (∀ u ∈ us, x < u.addr ∨ u.addr + sizeofChunk ≤ x) → m' x = m x)
    (hts : ∀ t ∈ ts, t.free = true) : Kept m m' (left ++ ts ++ right) (left ++ us ++ right) := by
  intro c hc hf
  have hbeside : c ∈ left ++ right := by
    rcases List.mem_append.mp hc with hc | hc
    · rcases List.mem_append.mp hc with hc | hc
      · exact List.mem_append_left _ hc
      · simp [hts c hc] at hf
    · exact List.mem_append_right _ hc
  refine ⟨?_, fun x hx hx' => hl.eq_beside hr hm hbeside ?_ hx'⟩
  · rcases List.mem_append.mp hbeside with hc | hc
    · simp [hc]
    · simp [hc]
  · rw [Chunk.payload] at hx
    omega

/-- Writes to the payload of a chunk leave the list and the other payloads alone. -/
lemma Stored.write_payload (h : Stored m p cs) (hl : Layout bs cs) (hc : c ∈ cs)
    (hm : ∀ x, x < c.payload ∨ c.finish ≤ x → m' x = m x) :
    Stored m' p cs ∧ ∀ d ∈ cs, d ≠ c → ∀ x, d.addr ≤ x → x < d.finish → m' x = m x := by
  have hother : ∀ d ∈ cs, d ≠ c → ∀ x, d.addr ≤ x → x < d.finish → m' x = m x := by
    intro d hd hne x hx hx'
    refine hm x ?_
    have hapart := hl.apart hd hc hne
    rw [Chunk.payload]
    rw [Chunk.finish] at hx' ⊢
    rw [Chunk.finish, Chunk.finish] at hapart
    omega
  refine ⟨h.congr fun d hd x hx hx' => ?_, hother⟩
  by_cases hcd : d = c
  · subst hcd
    exact hm x (Or.inl hx')
  · refine hother d hd hcd x hx ?_
    rw [Chunk.finish]
    omega

/-- Writes to the header of a chunk leave all payloads alone. -/
lemma Layout.payload_eq (hl : Layout bs cs) (hc : c ∈ cs)
    (hm : ∀ x, x < c.addr ∨ c.addr + sizeofChunk ≤ x → m' x = m x) (hd : d ∈ cs)
    (hx : d.payload ≤ x) (hx' : x < d.finish) : m' x = m x := by
  refine hm x ?_
  rw [Chunk.payload] at hx
  by_cases hcd : c = d
  · subst hcd
    exact Or.inr hx
  · have hapart := hl.apart hc hd hcd
    rw [Chunk.finish, Chunk.finish] at hapart
    rw [Chunk.finish] at hx'
    omega

/-! ## The loops -/

/-- What the first loop of `malloc_nolock` looks for. -/
def Chunk.fits (n : ℕ) (c : Chunk) : Bool := c.free && decide (n ≤ c.size)

/-- The first loop finds the first chunk with room among those it looks at. -/
lemma findFit_eq (h : Stored m p cs) (fuel : ℕ) :
    findFit m n fuel p = ((cs.take fuel).find? (Chunk.fits n)).map Chunk.addr := by
  induction fuel generalizing p cs with
  | zero => simp [findFit]
  | succ fuel ih =>
    cases cs with
    | nil =>
      obtain rfl := stored_nil.1 h
      simp [findFit]
    | cons c cs =>
      obtain ⟨rfl, hne, hsize, hfree, hrest⟩ := stored_cons.1 h
      rw [findFit, if_neg hne, hsize, hfree, ih hrest, List.take_succ_cons, List.find?_cons]
      by_cases hfit : c.fits n = true
      · have hno : ¬(c.free.toNat = 0 ∨ c.size < n) := by
          simp only [Chunk.fits, Bool.and_eq_true, decide_eq_true_eq] at hfit
          simp [hfit.1]
          omega
        rw [if_neg hno, hfit]
        rfl
      · have hyes : c.free.toNat = 0 ∨ c.size < n := by
          simp only [Chunk.fits, Bool.and_eq_true, decide_eq_true_eq, not_and, not_le] at hfit
          cases hcf : c.free with
          | false => exact Or.inl rfl
          | true => exact Or.inr (hfit hcf)
        rw [if_pos hyes, Bool.eq_false_iff.mpr hfit]

/-- The second loop ends at the last chunk, if it looks at all of them. -/
lemma walkTail_eq (h : Stored m p (cs ++ [c])) {fuel : ℕ} (hfuel : cs.length ≤ fuel) :
    walkTail m fuel p = c.addr := by
  induction cs generalizing p fuel with
  | nil =>
    obtain ⟨rfl, -, -, -, hnext⟩ := stored_cons.1 h
    have hnull := stored_nil.1 hnext
    cases fuel with
    | zero => rfl
    | succ fuel => simp [walkTail, hnull]
  | cons d cs ih =>
    obtain ⟨rfl, -, -, -, hrest⟩ := stored_cons.1 h
    obtain ⟨fuel, rfl⟩ : ∃ k, fuel = k + 1 := ⟨fuel - 1, by
      simp only [List.length_cons] at hfuel
      omega⟩
    have hne : get m d.addr .next ≠ 0 := by
      cases cs with
      | nil =>
        obtain ⟨hp, hc, -⟩ := stored_cons.1 hrest
        rw [hp]
        exact hc
      | cons e cs =>
        obtain ⟨hp, he, -⟩ := stored_cons.1 hrest
        rw [hp]
        exact he
    rw [walkTail, if_neg hne]
    refine ih hrest ?_
    simp only [List.length_cons] at hfuel
    omega

end

end Asteros.Malloc
