import Asteros.Malloc.HeapInvariant
import Mathlib.Data.List.Chain

set_option autoImplicit false

/-!
# How far `free` coalesces

The pass of `free_nolock` goes on to the chunk behind the one that has just swallowed its
neighbour, and never looks back. Of three free neighbours it joins the first two and leaves the
result in front of the third. What a pass leaves is therefore decided by the list before it: it
coalesces a list completely exactly if no three neighbours are free and every two of them lie where
the pass, which is cut off after `CHUNK_SCAN_LIMIT` turns, still gets to.

## Main definitions

* `Joins`, `Coalesced` — free neighbours, and a list without any.
* `Settles` — what the pass asks of a list.
* `FreeCoalesces`, `FreeSettles` — both at a call of `free`.

## Main results

* `coalesced_mergePass` — the pass coalesces a list exactly if it settles.
* `freeCoalesces_iff` — along every run.
-/

namespace Asteros.Malloc

open Transition LinkedList

/-- The chunk and the one behind it are both free and physically adjacent. -/
def Joins (c d : Chunk) : Prop := c.free ∧ d.free ∧ c.finish = d.addr

instance (c d : Chunk) : Decidable (Joins c d) := inferInstanceAs (Decidable (_ ∧ _))

/-- No two consecutive chunks are both free and physically adjacent. -/
def Coalesced (cs : List Chunk) : Prop := cs.IsChain fun c d => ¬Joins c d

/-- The number of consecutive chunks of a list that are both free and physically adjacent. -/
def pairs : List Chunk → ℕ
  | c :: d :: cs => (if Joins c d then 1 else 0) + pairs (d :: cs)
  | _ => 0

/-- No three neighbours are free, and two free neighbours have less than `limit` chunks in front of
them, two free neighbours counted as one. -/
structure Settles (limit : ℕ) (cs : List Chunk) : Prop where
  /-- No three neighbours are free. -/
  apart : ∀ left c d e right, cs = left ++ c :: d :: e :: right → Joins c d → ¬Joins d e
  /-- Two free neighbours are reached. -/
  reached : ∀ left c d right, cs = left ++ c :: d :: right → Joins c d →
    left.length < limit + pairs left

section

variable {cs left right : List Chunk} {c d e : Chunk} {limit : ℕ}

/-! ## The pass -/

/-- A list of two chunks or more. -/
@[simp] lemma coalesced_cons_cons :
    Coalesced (c :: d :: cs) ↔ ¬Joins c d ∧ Coalesced (d :: cs) :=
  List.isChain_cons_cons

/-- The empty list. -/
@[simp] lemma coalesced_nil : Coalesced [] := List.isChain_nil

/-- A list of one chunk. -/
@[simp] lemma coalesced_singleton : Coalesced [c] := List.isChain_singleton c

/-- Free neighbours of a list that is coalesced are none. -/
lemma Coalesced.not_joins (h : Coalesced (left ++ c :: d :: right)) : ¬Joins c d := by
  induction left with
  | nil => exact (coalesced_cons_cons.1 h).1
  | cons e left ih => exact ih (List.IsChain.tail h)

/-- There are not more pairs than chunks. -/
lemma pairs_le : pairs cs ≤ cs.length := by
  induction cs using pairs.induct with
  | case1 c d cs ih =>
    simp only [pairs, List.length_cons] at ih ⊢
    split <;> omega
  | case2 cs hcs =>
    rw [pairs.eq_2 cs hcs]
    exact Nat.zero_le _

/-- A chunk that does not join the next one. -/
lemma pairs_cons (h : ∀ d ds, cs = d :: ds → ¬Joins c d) : pairs (c :: cs) = pairs cs := by
  cases cs with
  | nil => rfl
  | cons d ds => rw [pairs, if_neg (h d ds rfl), zero_add]

/-- A list that is coalesced settles with any limit. -/
lemma Coalesced.settles (h : Coalesced cs) : Settles limit cs where
  apart left c d e right heq hcd := by
    rw [heq] at h
    exact absurd hcd h.not_joins
  reached left c d right heq hcd := by
    rw [heq] at h
    exact absurd hcd h.not_joins

/-- With no turn left, only a list that is coalesced settles. -/
lemma settles_zero : Settles 0 cs ↔ Coalesced cs := by
  refine ⟨fun h => ?_, Coalesced.settles⟩
  have hnone : ∀ left c d right, cs = left ++ c :: d :: right → ¬Joins c d := by
    intro left c d right heq hcd
    have hlt := h.reached left c d right heq hcd
    have hle : pairs left ≤ left.length := pairs_le
    omega
  clear h
  induction cs with
  | nil => exact coalesced_nil
  | cons c cs ih =>
    cases cs with
    | nil => exact coalesced_singleton
    | cons d cs =>
      refine coalesced_cons_cons.2 ⟨hnone [] c d cs rfl, ih fun left a b right heq => ?_⟩
      exact hnone (c :: left) a b right (by rw [heq, List.cons_append])

/-- In front of the chunks of a list that settles, a chunk that joins none of them. -/
lemma Settles.cons (hcs : Settles limit (d :: cs)) (h : ¬Joins c d) :
    Settles (limit + 1) (c :: d :: cs) where
  apart left a b e right heq hab := by
    rcases left with _ | ⟨x, left⟩
    · obtain ⟨rfl, rfl, -⟩ : c = a ∧ d = b ∧ cs = e :: right := by simpa using heq
      exact absurd hab h
    · obtain ⟨rfl, htail⟩ : c = x ∧ d :: cs = left ++ a :: b :: e :: right := by simpa using heq
      exact hcs.apart left a b e right htail hab
  reached left a b right heq hab := by
    rcases left with _ | ⟨x, left⟩
    · rw [List.length_nil]
      omega
    · obtain ⟨rfl, htail⟩ : c = x ∧ d :: cs = left ++ a :: b :: right := by simpa using heq
      have hlt := hcs.reached left a b right htail hab
      have hpairs : pairs (c :: left) = pairs left := by
        refine pairs_cons fun d' ds hleft => ?_
        subst hleft
        obtain ⟨rfl, -⟩ : d = d' ∧ cs = ds ++ a :: b :: right := by simpa using htail
        exact h
      rw [List.length_cons, hpairs]
      omega

/-- Behind a chunk that does not join the next one, the pass goes on with one turn less. -/
lemma settles_cons (h : ¬Joins c d) :
    Settles (limit + 1) (c :: d :: cs) ↔ Settles limit (d :: cs) := by
  refine ⟨fun hs => ⟨fun left a b e right heq hab => ?_, fun left a b right heq hab => ?_⟩,
    fun hs => hs.cons h⟩
  · exact hs.apart (c :: left) a b e right (by rw [heq, List.cons_append]) hab
  · have hlt := hs.reached (c :: left) a b right (by rw [heq, List.cons_append]) hab
    have hpairs : pairs (c :: left) = pairs left := by
      refine pairs_cons fun d' ds hleft => ?_
      subst hleft
      obtain ⟨rfl, -⟩ : d = d' ∧ cs = ds ++ a :: b :: right := by simpa using heq
      exact h
    rw [List.length_cons, hpairs] at hlt
    omega

/-- Behind two chunks that were joined as well, if the second one does not join the next one. -/
lemma settles_joined (h : Joins c d) :
    Settles (limit + 1) (c :: d :: cs) ↔ (∀ e es, cs = e :: es → ¬Joins d e) ∧ Settles limit cs := by
  have hpairs : ∀ left, (∀ e es, left = e :: es → ¬Joins d e) →
      pairs (c :: d :: left) = pairs left + 1 := by
    intro left hleft
    rw [pairs, if_pos h, pairs_cons hleft, Nat.add_comm]
  constructor
  · intro hs
    have hd : ∀ e es, cs = e :: es → ¬Joins d e := by
      rintro e es rfl
      exact hs.apart [] c d e es rfl h
    refine ⟨hd, fun left a b e right heq hab => ?_, fun left a b right heq hab => ?_⟩
    · exact hs.apart (c :: d :: left) a b e right (by rw [heq]; rfl) hab
    · have hlt := hs.reached (c :: d :: left) a b right (by rw [heq]; rfl) hab
      rw [hpairs left, List.length_cons, List.length_cons] at hlt
      · omega
      · rintro e es rfl
        exact hd e _ heq
  · rintro ⟨hd, hs⟩
    refine ⟨fun left a b e right heq hab => ?_, fun left a b right heq hab => ?_⟩
    · rcases left with _ | ⟨x, _ | ⟨y, left⟩⟩
      · obtain ⟨rfl, rfl, rfl⟩ : c = a ∧ d = b ∧ cs = e :: right := by simpa using heq
        exact hd e right rfl
      · obtain ⟨rfl, rfl, rfl⟩ : c = x ∧ d = a ∧ cs = b :: e :: right := by simpa using heq
        exact absurd hab (hd b _ rfl)
      · obtain ⟨rfl, rfl, rfl⟩ : c = x ∧ d = y ∧ cs = left ++ a :: b :: e :: right := by
          simpa using heq
        exact hs.apart left a b e right rfl hab
    · rcases left with _ | ⟨x, _ | ⟨y, left⟩⟩
      · rw [List.length_nil]
        omega
      · obtain ⟨rfl, rfl, rfl⟩ : c = x ∧ d = a ∧ cs = b :: right := by simpa using heq
        exact absurd hab (hd b _ rfl)
      · obtain ⟨rfl, rfl, rfl⟩ : c = x ∧ d = y ∧ cs = left ++ a :: b :: right := by
          simpa using heq
        have hlt := hs.reached left a b right rfl hab
        rw [hpairs left, List.length_cons, List.length_cons]
        · omega
        · rintro e es rfl
          exact hd e _ rfl

/-- The first chunk of a list keeps its address and its flag in the pass. -/
lemma mergePass_head {es : List Chunk} (h : mergePass limit cs = e :: es) :
    ∃ c ds, cs = c :: ds ∧ e.addr = c.addr ∧ e.free = c.free := by
  induction limit, cs using mergePass.induct with
  | case1 cs =>
    rw [mergePass] at h
    exact ⟨e, es, h, rfl, rfl⟩
  | case2 limit => cases h
  | case3 limit c =>
    rw [mergePass] at h
    cases h
    exact ⟨e, [], rfl, rfl, rfl⟩
  | case4 limit c d cs hmerge ih =>
    rw [mergePass, if_pos hmerge] at h
    cases h
    exact ⟨c, d :: cs, rfl, rfl, hmerge.1.symm⟩
  | case5 limit c d cs hmerge ih =>
    rw [mergePass, if_neg hmerge] at h
    cases h
    exact ⟨e, d :: cs, rfl, rfl, rfl⟩

/-- And the pass has no chunks left only if it had none. -/
lemma mergePass_eq_nil (h : mergePass limit cs = []) : cs = [] := by
  induction limit, cs using mergePass.induct with
  | case1 cs => rwa [mergePass] at h
  | case2 limit => rfl
  | case3 limit c => cases h
  | case4 limit c d cs hmerge ih =>
    rw [mergePass, if_pos hmerge] at h
    cases h
  | case5 limit c d cs hmerge ih =>
    rw [mergePass, if_neg hmerge] at h
    cases h

/-- In front of what the pass leaves of a list, a chunk that ends where a chunk `d` ends and is as
free: it joins the first one exactly if `d` does. -/
lemma coalesced_cons_mergePass {x : Chunk} (hfree : x.free = d.free) (hfin : x.finish = d.finish) :
    Coalesced (x :: mergePass limit cs) ↔
      (∀ e es, cs = e :: es → ¬Joins d e) ∧ Coalesced (mergePass limit cs) := by
  cases hm : mergePass limit cs with
  | nil =>
    obtain rfl := mergePass_eq_nil hm
    simp
  | cons e' es' =>
    obtain ⟨e, es, rfl, haddr, hflag⟩ := mergePass_head hm
    have hjoins : Joins x e' ↔ Joins d e := by
      rw [Joins, Joins, hfree, hfin, haddr, hflag]
    rw [coalesced_cons_cons, hjoins]
    refine and_congr_left fun _ => ⟨?_, fun h => h e es rfl⟩
    rintro h _ _ ⟨⟩
    exact h

/-- **The pass of `free`** leaves no two free neighbours exactly if no three neighbours were free
and the pass has reached all free neighbours.

**Proof sketch.** Induction on the turns. After a merge the pass goes on behind both chunks, so the
merged chunk joins what follows exactly if the second one did. -/
theorem coalesced_mergePass : Coalesced (mergePass limit cs) ↔ Settles limit cs := by
  induction limit, cs using mergePass.induct with
  | case1 cs => rw [mergePass, settles_zero]
  | case2 limit =>
    rw [mergePass]
    exact ⟨Coalesced.settles, fun _ => coalesced_nil⟩
  | case3 limit c =>
    rw [mergePass]
    exact ⟨Coalesced.settles, fun _ => coalesced_singleton⟩
  | case4 limit c d cs hmerge ih =>
    have hfin : Chunk.finish ⟨c.addr, c.size + (sizeofChunk + d.size), true⟩ = d.finish := by
      have hadj := hmerge.2.2
      simp only [Chunk.finish] at hadj ⊢
      omega
    rw [mergePass, if_pos hmerge, settles_joined hmerge, ← ih,
      coalesced_cons_mergePass (d := d) hmerge.2.1.symm hfin]
  | case5 limit c d cs hmerge ih =>
    have hnot : ∀ e es, d :: cs = e :: es → ¬Joins c e := by
      rintro _ _ ⟨⟩
      exact hmerge
    rw [mergePass, if_neg hmerge, settles_cons hmerge, ← ih, coalesced_cons_mergePass rfl rfl,
      and_iff_right hnot]

end

/-! ## Calls of `free` -/

/-- The pointer that a call passes to `free`: `realloc` frees its block when it is asked for no
bytes. -/
def Call.freed : Call → Option ℕ
  | .free ptr => some ptr
  | .realloc ptr size => if ptr ≠ 0 ∧ size = 0 then some ptr else none
  | .malloc _ | .calloc _ _ | .alignedAlloc _ _ | .write _ _ => none

/-- When `free` returns, no two consecutive chunks of the list are both free and physically
adjacent. -/
def FreeCoalesces (s : State) (c : Call) : Prop :=
  ∀ ptr t, c.freed = some ptr → step s c = some t →
    ∃ cs, Stored t.heap.mem t.heap.gHead cs ∧ Coalesced cs

/-- When `free` is called, the list settles with the chunk marked. `free(NULL)` makes no pass, and
the list must be coalesced already. -/
def FreeSettles (s : State) (c : Call) : Prop :=
  ∀ ptr cs, c.freed = some ptr → Stored s.heap.mem s.heap.gHead cs →
    (ptr = 0 → Coalesced cs) ∧ (ptr ≠ 0 → Settles chunkScanLimit (mark ptr cs))

/-- The call does not link a new block in the middle of the list. -/
def KeepsChain (s : State) (c : Call) : Prop :=
  ∀ size, c.request s.heap = some size → ¬CutsChain s.heap size

section

variable {s t : State} {call : Call} {cs ds : List Chunk} {m : ℕ → UInt8} {p ptr size : ℕ}

/-- The memory holds one list of chunks. -/
lemma Stored.unique (h : Stored m p cs) (h' : Stored m p ds) : cs = ds := by
  have haddr := isSeg_unique h.links h'.links
  have hval : ∀ c ∈ cs, ∀ d ∈ ds, c.addr = d.addr → c = d := by
    intro c hc d hd heq
    have hsize : c.size = d.size := by rw [← h.size c hc, ← h'.size d hd, heq]
    have hfree : c.free = d.free := by
      have hnat : c.free.toNat = d.free.toNat := by rw [← h.free c hc, ← h'.free d hd, heq]
      revert hnat
      cases c.free <;> cases d.free <;> simp
    cases c
    cases d
    simp_all
  clear h h'
  induction cs generalizing ds with
  | nil => simpa using haddr.symm
  | cons c cs ih =>
    cases ds with
    | nil => cases haddr
    | cons d ds =>
      obtain ⟨hcd, htail⟩ : c.addr = d.addr ∧ cs.map Chunk.addr = ds.map Chunk.addr := by
        simpa using haddr
      rw [hval c List.mem_cons_self d List.mem_cons_self hcd, ih htail fun a ha b hb =>
        hval a (List.mem_cons_of_mem _ ha) b (List.mem_cons_of_mem _ hb)]

/-- What a call of `free` does to the heap. -/
lemma run_of_freed (h : call.freed = some ptr) :
    call.run s.heap = some (0, freeNolock s.heap ptr) := by
  cases call with
  | free p =>
    cases h
    rfl
  | realloc p size =>
    simp only [Call.freed] at h
    split at h
    · next hp =>
      cases h
      simp [Call.run, realloc, hp.1, hp.2]
    · cases h
  | malloc _ | calloc _ _ | alignedAlloc _ _ | write _ _ => cases h

/-- What `free` is given is live or `NULL`. -/
lemma liveOrNull_of_freed (h : call.freed = some ptr) (ha : Allowed s call) :
    LiveOrNull s ptr := by
  cases call with
  | free p =>
    cases h
    exact ha
  | realloc p size =>
    simp only [Call.freed] at h
    split at h
    · cases h
      exact ha.1
    · cases h
  | malloc _ | calloc _ _ | alignedAlloc _ _ | write _ _ => cases h

/-- A request faults when `mmap` gives no block to begin the list with. -/
lemma run_initFails (h : call.request s.heap = some size) (hinit : InitFails s.heap) :
    call.run s.heap = none := by
  have hfault := mallocNolock_initFails hinit
  cases call with
  | malloc _ => exact hfault _
  | calloc nmemb n =>
    simp only [Call.request] at h
    split at h
    · next hlt =>
      have hover : ¬(nmemb ≠ 0 ∧ nmemb * n % 2 ^ 64 / nmemb ≠ n) := by
        rw [Nat.mod_eq_of_lt hlt]
        rintro ⟨hne, hdiv⟩
        exact hdiv (Nat.mul_div_cancel_left n (Nat.pos_of_ne_zero hne))
      simp only [Call.run, Malloc.calloc, if_neg hover, hfault]
    · cases h
  | realloc p n =>
    simp only [Call.request] at h
    split at h
    · next hp => simp only [Call.run, realloc, if_pos hp, hfault]
    · next hp =>
      split at h
      · next hn => simp only [Call.run, realloc, if_neg hp, if_neg hn.1, if_neg hn.2.not_ge, hfault]
      · cases h
  | alignedAlloc a n =>
    simp only [Call.run, alignedAlloc, hfault]
    split <;> rfl
  | free _ => cases h
  | write _ _ => cases h

/-- **A call of `free`** coalesces the list exactly if the list settles. -/
lemma freeCoalesces_step (hh : Holds s.heap cs) (hl : LiveIn cs s.live) (ha : Allowed s call) :
    FreeCoalesces s call ↔ FreeSettles s call := by
  have hstep : ∀ ptr, call.freed = some ptr → ∃ live,
      step s call = some ⟨freeNolock s.heap ptr, live⟩ := by
    intro ptr hfreed
    rw [step, run_of_freed hfreed]
    exact ⟨_, rfl⟩
  have hexact : ∀ ptr, call.freed = some ptr → ptr ≠ 0 →
      Holds (freeNolock s.heap ptr) (mergePass chunkScanLimit (mark ptr cs)) := by
    intro ptr hfreed hne
    obtain ⟨b, hb, rfl⟩ := (liveOrNull_of_freed hfreed ha).resolve_left hne
    obtain ⟨c, hc, -, hpay, -⟩ := hl.chunk b hb
    exact (freeNolock_pass hh hc hpay).1
  constructor
  · intro h ptr ds hfreed hds
    obtain ⟨live, ht⟩ := hstep ptr hfreed
    obtain ⟨ds', hds', hcoal⟩ := h ptr _ hfreed ht
    obtain rfl := hh.stored.unique hds
    refine ⟨fun hnull => ?_, fun hne => ?_⟩
    · rw [freeNolock, if_pos hnull] at hds'
      rwa [hh.stored.unique hds']
    · rw [← coalesced_mergePass, (hexact ptr hfreed hne).stored.unique hds']
      exact hcoal
  · intro h ptr t hfreed ht
    obtain ⟨live, ht'⟩ := hstep ptr hfreed
    rw [ht'] at ht
    cases ht
    obtain ⟨hnull, hpass⟩ := h ptr cs hfreed hh.stored
    by_cases hne : ptr = 0
    · refine ⟨cs, ?_, hnull hne⟩
      rw [freeNolock, if_pos hne]
      exact hh.stored
    · exact ⟨_, (hexact ptr hfreed hne).stored, coalesced_mergePass.2 (hpass hne)⟩

/-- An allowed call that keeps the chain together keeps the heap, if it returns. -/
lemma holds_step (hh : Holds s.heap cs) (hl : LiveIn cs s.live) (ha : Allowed s call)
    (hk : KeepsChain s call) (ht : step s call = some t) :
    ∃ ds, Holds t.heap ds ∧ LiveIn ds t.live := by
  have hsafe : SafeCall s call := by
    refine fun size hsize => ⟨fun hinit => ?_, hk size hsize⟩
    rw [step, run_initFails hsize hinit] at ht
    cases ht
  obtain ⟨p, h, ds, hrun, hh', hl', -⟩ := call_spec hh hl ha hsafe
  rw [step, hrun] at ht
  cases ht
  exact ⟨ds, hh', hl'⟩

end

/-! ## Runs -/

/-- **Coalescing.** In every run of allowed calls that keep the chain together, each `free` leaves
no two consecutive chunks that are both free and physically adjacent exactly if each `free` finds
the list, with its chunk marked, with no three such neighbours and with all of them in reach.

**Proof sketch.** The chunks and the live allocations are the invariant; at each call of `free` the
two conditions say the same of the list that the heap holds there. -/
theorem freeCoalesces_iff (mem : ℕ → UInt8) (answers : List (Option ℕ)) (calls : List Call)
    (hok : Along step (fun s c => Allowed s c ∧ KeepsChain s c) (start mem answers) calls) :
    Along step FreeCoalesces (start mem answers) calls ↔
      Along step FreeSettles (start mem answers) calls := by
  have hstart : Holds (start mem answers).heap [] := ⟨stored_nil.mpr rfl, layout_nil⟩
  have hnone : LiveIn [] (start mem answers).live := ⟨by simp [start], by simp [start]⟩
  refine along_iff_of_along (P := fun s => ∃ cs, Holds s.heap cs ∧ LiveIn cs s.live)
    ?_ ?_ ⟨[], hstart, hnone⟩ hok
  · rintro s c t ⟨cs, hh, hl⟩ ⟨ha, hk⟩ ht
    exact holds_step hh hl ha hk ht
  · rintro s c ⟨cs, hh, hl⟩ ⟨ha, -⟩
    exact freeCoalesces_step hh hl ha

/-- A process allocates 100 bytes and frees them. -/
theorem freeCoalesces_iff_mallocFree :
    Along step FreeCoalesces (start (fun _ => 0) [some 4096]) [.malloc 100, .free 4128] ↔
      Along step FreeSettles (start (fun _ => 0) [some 4096]) [.malloc 100, .free 4128] := by
  refine freeCoalesces_iff (fun _ => 0) [some 4096] [.malloc 100, .free 4128]
    ⟨⟨show 100 + 48 ≤ 2 ^ 64 by decide, fun size hsize => ?_⟩,
      fun t ht => ⟨⟨Or.inr ?_, fun size hsize => ?_⟩, fun _ _ => trivial⟩⟩
  · exact not_cutsChain_of_empty rfl size
  · have hlive : (step (start (fun _ => 0) [some 4096]) (.malloc 100)).map State.live =
        some [⟨4128, 100, 16⟩] := by decide
    rw [ht] at hlive
    have ht : t.live = [⟨4128, 100, 16⟩] := Option.some_inj.mp hlive
    exact ⟨⟨4128, 100, 16⟩, by simp [ht], rfl⟩
  · cases hsize

/-- Small requests, and frees of live blocks. -/
def Plain (s : State) : Call → Prop
  | .malloc size => size ≤ 4096
  | .free ptr => ∃ b ∈ s.live, b.ptr = ptr
  | .calloc _ _ | .realloc _ _ | .alignedAlloc _ _ | .write _ _ => False

instance (s : State) (c : Call) : Decidable (Plain s c) :=
  match c with
  | .malloc size => inferInstanceAs (Decidable (size ≤ 4096))
  | .free ptr => inferInstanceAs (Decidable (∃ b ∈ s.live, b.ptr = ptr))
  | .calloc _ _ | .realloc _ _ | .alignedAlloc _ _ | .write _ _ => inferInstanceAs (Decidable False)

/-- They are allowed. -/
lemma Plain.allowed {s : State} {c : Call} (h : Plain s c) : Allowed s c := by
  cases c with
  | malloc size =>
    have hle : size ≤ 4096 := h
    show size + 48 ≤ 2 ^ 64
    omega
  | free ptr => exact Or.inr h
  | calloc _ _ | realloc _ _ | alignedAlloc _ _ | write _ _ => exact h.elim

/-- Three blocks `a`, `b`, `c` in a row are handed out, and `a` and `c` are freed. -/
def freedAround : List Call :=
  [.malloc 16, .malloc 16, .malloc 16, .free 4128, .free 4224]

/-- What the list is when `b` was freed as well: the chunk of `a` has swallowed that of `b`, and
the one of `c` the rest of the arena. -/
def leftApart : List Chunk := [⟨4096, 64, true⟩, ⟨4192, 8388480, true⟩]

/-- The list in the memory then. -/
lemma exec_freedAround {t : State}
    (h : exec step (start (fun _ => 0) [some 4096]) freedAround = some t) :
    Stored (freeNolock t.heap 4176).mem (freeNolock t.heap 4176).gHead leftApart := by
  have hread : ((exec step (start (fun _ => 0) [some 4096]) freedAround).map fun t =>
      let h := freeNolock t.heap 4176
      [h.gHead, get h.mem 4096 .size, get h.mem 4096 .free, get h.mem 4096 .next,
        get h.mem 4192 .size, get h.mem 4192 .free, get h.mem 4192 .next]) =
      some [4096, 64, 1, 4192, 8388480, 1, 0] := by
    decide +kernel
  rw [h] at hread
  simp only [Option.map_some, Option.some.injEq, List.cons.injEq, and_true] at hread
  obtain ⟨hhead, hsize, hfree, hnext, hsize', hfree', hnext'⟩ := hread
  refine stored_cons.mpr ⟨hhead, by decide, hsize, hfree, ?_⟩
  rw [hnext]
  refine stored_cons.mpr ⟨rfl, by decide, hsize', hfree', ?_⟩
  rw [hnext']
  exact stored_nil.mpr rfl

/-- Not every `free` coalesces: the pass joins `b` to `a` and does not come back to join the two
to `c`. -/
theorem not_freeCoalesces_middleLast :
    ¬∀ mem answers calls, Along step Allowed (start mem answers) calls →
      Along step FreeCoalesces (start mem answers) calls := by
  intro h
  have hplain : Along step Plain (start (fun _ => 0) [some 4096])
      (freedAround ++ [Call.free 4176]) := by
    decide +kernel
  have hlast := h _ _ _ (hplain.mono fun _ _ => Plain.allowed)
  obtain ⟨t, ht⟩ : ∃ t, exec step (start (fun _ => 0) [some 4096]) freedAround = some t := by
    refine Option.isSome_iff_exists.mp ?_
    decide +kernel
  obtain ⟨cs, hcs, hcoal⟩ := hlast.last ht 4176 _ rfl rfl
  rw [hcs.unique (exec_freedAround ht)] at hcoal
  exact (coalesced_cons_cons.mp hcoal).1 (by decide)

end Asteros.Malloc
