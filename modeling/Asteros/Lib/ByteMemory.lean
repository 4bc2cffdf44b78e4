import Asteros.Lib.LittleEndian
import Mathlib.Data.List.Induction
import Mathlib.Tactic.SplitIfs

set_option autoImplicit false

/-!
# Byte-addressed memory

Memory is a function from addresses to bytes. A range of it is loaded as a byte list and stored
from one, and numbers are kept little-endian. Two accesses to disjoint ranges do not affect each
other; a load after a store to the same range gives back what was stored.

## Main definitions

* `load`, `store` — a range of memory as a byte list.
* `loadNat`, `storeNat` — a range of memory as a number.

## Main results

* `load_store_same`, `load_store_of_disjoint` — a load after a store.
* `loadNat_storeNat_same`, `loadNat_storeNat_of_disjoint` — the same for numbers.
* `storeAll_eq` — the order and number of stores to disjoint ranges do not matter.
-/

namespace ByteMemory

open LittleEndian

/-- The `n` bytes at address `a`. -/
def load (m : ℕ → UInt8) (a n : ℕ) : List UInt8 := (List.range n).map fun i => m (a + i)

/-- Memory after the bytes `bs` are stored at address `a`. -/
def store (m : ℕ → UInt8) (a : ℕ) (bs : List UInt8) : ℕ → UInt8 := fun i =>
  if a ≤ i then (bs[i - a]?).getD (m i) else m i

/-- The number in the `n` bytes at address `a`. -/
def loadNat (m : ℕ → UInt8) (a n : ℕ) : ℕ := leVal (load m a n)

/-- Memory after the number `v` is stored in the `n` bytes at address `a`. -/
def storeNat (m : ℕ → UInt8) (a n v : ℕ) : ℕ → UInt8 := store m a (leBytes n v)

variable {m m' : ℕ → UInt8} {a b n k v : ℕ} {bs : List UInt8}

/-! ## Ranges -/

/-- A range has the length asked for. -/
@[simp] lemma length_load : (load m a n).length = n := by simp [load]

/-- The bytes of a range. -/
lemma getElem?_load {i : ℕ} (h : i < n) : (load m a n)[i]? = some (m (a + i)) := by
  simp [load, h]

/-- A range in two parts. -/
lemma load_add (m : ℕ → UInt8) (a n k : ℕ) : load m a (n + k) = load m a n ++ load m (a + n) k := by
  simp only [load, List.range_add, List.map_append, List.map_map, Function.comp_def, Nat.add_assoc]

/-- A range only depends on the memory inside it. -/
lemma load_congr (h : ∀ i, a ≤ i → i < a + n → m i = m' i) : load m a n = load m' a n := by
  refine List.map_congr_left fun i hi => ?_
  have := List.mem_range.mp hi
  exact h (a + i) (by omega) (by omega)

/-- A store does not change the memory outside its range. -/
lemma store_of_not_mem {i : ℕ} (h : i < a ∨ a + bs.length ≤ i) : store m a bs i = m i := by
  unfold store
  split_ifs with ha
  · rw [List.getElem?_eq_none (by omega)]
    rfl
  · rfl

/-- A store puts its bytes inside its range. -/
lemma store_of_mem {i : ℕ} (h : i < bs.length) : store m a bs (a + i) = bs[i] := by
  simp [store, h]

/-- Loading a part of what was just stored. -/
lemma load_store_sub (off : ℕ) (h : off + n ≤ bs.length) :
    load (store m a bs) (a + off) n = (bs.drop off).take n := by
  refine List.ext_getElem (by simp; omega) fun i hi hi' => ?_
  have hin : off + i < bs.length := by rw [length_load] at hi; omega
  rw [List.getElem_take, List.getElem_drop, ← store_of_mem (m := m) (a := a) hin]
  simp [load, Nat.add_assoc]

/-- Loading what was just stored. -/
@[simp] lemma load_store_same : load (store m a bs) a bs.length = bs := by
  have h := load_store_sub (m := m) (a := a) 0 (Nat.zero_add bs.length).le
  simpa using h

/-- Loading a range that a store did not touch. -/
lemma load_store_of_disjoint (h : b + n ≤ a ∨ a + bs.length ≤ b) :
    load (store m a bs) b n = load m b n :=
  load_congr fun _ hi hi' => store_of_not_mem (by omega)

/-! ## Numbers -/

/-- A number in memory fits in its range. -/
lemma loadNat_lt (m : ℕ → UInt8) (a n : ℕ) : loadNat m a n < 256 ^ n := by
  simpa [loadNat] using leVal_lt (load m a n)

/-- A number only depends on the memory inside its range. -/
lemma loadNat_congr (h : ∀ i, a ≤ i → i < a + n → m i = m' i) : loadNat m a n = loadNat m' a n := by
  rw [loadNat, load_congr h, loadNat]

/-- Storing a number does not change the memory outside its range. -/
lemma storeNat_of_not_mem {i : ℕ} (h : i < a ∨ a + n ≤ i) : storeNat m a n v i = m i :=
  store_of_not_mem (by simpa using h)

/-- Loading the number that was just stored. -/
lemma loadNat_storeNat_same (h : v < 256 ^ n) : loadNat (storeNat m a n v) a n = v := by
  have hload : load (store m a (leBytes n v)) a n = leBytes n v := by
    simpa using @load_store_same m a (leBytes n v)
  rw [loadNat, storeNat, hload, leVal_leBytes_of_lt h]

/-- Loading a number from a range that a store did not touch. -/
lemma loadNat_storeNat_of_disjoint (h : b + k ≤ a ∨ a + n ≤ b) :
    loadNat (storeNat m a n v) b k = loadNat m b k :=
  loadNat_congr fun _ hi hi' => storeNat_of_not_mem (by omega)

/-! ## Many stores -/

section Many

variable {ι : Type} {addr val : ι → ℕ}

/-- Memory after the numbers `val` are stored in the `n` bytes at `addr`, one after another. -/
def storeAll (n : ℕ) (addr val : ι → ℕ) (m : ℕ → UInt8) (is : List ι) : ℕ → UInt8 :=
  is.foldl (fun m i => storeNat m (addr i) n (val i)) m

/-- Two ranges of `n` bytes have no byte in common. -/
def Apart (n a b : ℕ) : Prop := a + n ≤ b ∨ b + n ≤ a

/-- Where no store goes, memory is as before. -/
lemma storeAll_of_not_mem {is : List ι} {x : ℕ}
    (h : ∀ i ∈ is, x < addr i ∨ addr i + n ≤ x) : storeAll n addr val m is x = m x := by
  induction is using List.reverseRecOn with
  | nil => rfl
  | append_singleton is i ih =>
    have hlast := h i (List.mem_append_right _ List.mem_cons_self)
    rw [storeAll, List.foldl_append, List.foldl_cons, List.foldl_nil, storeNat_of_not_mem hlast]
    exact ih fun j hj => h j (List.mem_append_left _ hj)

/-- Where one range is, memory has its number. -/
lemma storeAll_of_mem {is : List ι} (hapart : ∀ i ∈ is, ∀ j ∈ is, i ≠ j → Apart n (addr i) (addr j))
    {i : ι} (hi : i ∈ is) {x : ℕ} (hx : addr i ≤ x) (hx' : x < addr i + n) :
    storeAll n addr val m is x = storeNat m (addr i) n (val i) x := by
  obtain ⟨k, rfl⟩ : ∃ k, x = addr i + k := ⟨x - addr i, by omega⟩
  have hlen : k < (leBytes n (val i)).length := by
    rw [length_leBytes]
    omega
  have hstored : ∀ m, storeNat m (addr i) n (val i) (addr i + k) = (leBytes n (val i))[k] :=
    fun m => store_of_mem hlen
  rw [hstored]
  induction is using List.reverseRecOn with
  | nil => exact absurd hi List.not_mem_nil
  | append_singleton is j ih =>
    have hj : j ∈ is ++ [j] := List.mem_append_right _ List.mem_cons_self
    rw [storeAll, List.foldl_append, List.foldl_cons, List.foldl_nil]
    by_cases hij : i = j
    · subst hij
      exact hstored _
    · have hmem : i ∈ is := (List.mem_append.mp hi).resolve_right fun h =>
        hij (List.mem_singleton.mp h)
      rw [storeNat_of_not_mem (by rcases hapart i hi j hj hij with h | h <;> omega)]
      exact ih (fun i hi j hj => hapart i (List.mem_append_left _ hi) j (List.mem_append_left _ hj))
        hmem

/-- **The order and number of stores to disjoint ranges do not matter.** -/
lemma storeAll_eq {is js : List ι} (h : ∀ i, i ∈ is ↔ i ∈ js)
    (hapart : ∀ i ∈ is, ∀ j ∈ is, i ≠ j → Apart n (addr i) (addr j)) :
    storeAll n addr val m is = storeAll n addr val m js := by
  have hapart' : ∀ i ∈ js, ∀ j ∈ js, i ≠ j → Apart n (addr i) (addr j) := fun i hi j hj =>
    hapart i ((h i).mpr hi) j ((h j).mpr hj)
  funext x
  by_cases hx : ∃ i ∈ is, addr i ≤ x ∧ x < addr i + n
  · obtain ⟨i, hi, hle, hlt⟩ := hx
    rw [storeAll_of_mem hapart hi hle hlt, storeAll_of_mem hapart' ((h i).mp hi) hle hlt]
  · have hout : ∀ i ∈ is, x < addr i ∨ addr i + n ≤ x := fun i hi => by
      by_contra hin
      exact hx ⟨i, hi, by omega, by omega⟩
    rw [storeAll_of_not_mem hout, storeAll_of_not_mem fun i hi => hout i ((h i).mpr hi)]

end Many

end ByteMemory
