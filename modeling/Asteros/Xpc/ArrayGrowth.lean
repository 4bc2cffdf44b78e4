import Asteros.Xpc.Object
import Mathlib.Data.Nat.Log

set_option autoImplicit false

/-!
# The vector of an array

An XPC array is a vector of pointers that grows by doubling. `ensure_cap` computes the new capacity
and the size in bytes as `size_t` values, and neither it nor its caller looks whether the capacity
has wrapped, whether the size has, or whether `realloc` has given anything. What the block behind
`items` has room for is not in the source: it is what `realloc` was asked for. A store outside of it
is undefined, and a store through `NULL` a fault.

What the allocator would answer during a call is a parameter: which sizes it has a block for, and
how many objects.

## Main definitions

* `growLoop`, `ensureCap` — the growth of the vector.
* `xpcArraySetValue`, `xpcArrayAppendValue` — the functions that store.
* `Stores` — the call returns and has stored the value, or left the array alone.

## Main results

* `growLoop_eq`, `growLoop_never` — which capacity the loop ends with, and when it does not end.
* `stores_iff` — exactly when the call stores the value.
-/

namespace Asteros.Xpc

open Asteros.Libc

/-- `XPC_ARRAY_APPEND`. -/
def xpcArrayAppend : ℕ := 2 ^ 64 - 1

/-- `sizeof(xpc_object_t)`. -/
def sizeofPointer : ℕ := 8

/-- What the allocator would answer. -/
structure Allocator where
  /-- It has a block of that many bytes. -/
  grants : ℕ → Bool
  /-- It has that many objects. -/
  objects : ℕ

/-- An array, by what it stands for its pointers. -/
structure Vector (α : Type) where
  /-- The first `count` of the `items`. -/
  items : List α
  /-- `cap`. -/
  cap : ℕ
  /-- The number of bytes of the block behind `items`, which is 0 for `NULL`. -/
  room : ℕ
  deriving DecidableEq

/-- `xpc_array_create_empty`. -/
def xpcArrayCreateEmpty : Vector XpcObject := ⟨[], 0, 0⟩

/-- What goes wrong. -/
inductive Fault where
  /-- A store outside of the block, or through `NULL`. -/
  | overrun
  /-- An object that was not allocated is initialised. -/
  | noObject
  deriving DecidableEq

variable {α : Type}

/-- The loop of `ensure_cap`. -/
def growLoop (need : ℕ) : ℕ → ℕ → Option ℕ
  | 0, _ => none
  | fuel + 1, newcap =>
    if newcap < need then growLoop need fuel (newcap * 2 % 2 ^ 64) else some newcap

/-- `realloc`, by the number of bytes of the old block and the new one: no bytes are asked of a
block that is there to free it, and of `NULL` to get the smallest block. -/
def reallocRoom (env : Allocator) (room bytes : ℕ) : ℕ :=
  if room ≠ 0 ∧ bytes = 0 then 0
  else if env.grants bytes then (if bytes = 0 then 16 else bytes) else 0

/-- `ensure_cap`. -/
def ensureCap (fuel : ℕ) (env : Allocator) (a : Vector α) (need : ℕ) : Option (Vector α) :=
  if need ≤ a.cap then some a
  else
    (growLoop need fuel (if a.cap ≠ 0 then a.cap * 2 % 2 ^ 64 else 4)).map fun newcap =>
      { a with cap := newcap, room := reallocRoom env a.room (newcap * sizeofPointer % 2 ^ 64) }

/-- A store to `items[items.length]`. -/
def push (room : ℕ) (items : List α) (v : α) : Except Fault (List α) :=
  if room < (items.length + 1) * sizeofPointer then .error .overrun else .ok (items ++ [v])

/-- The loop that fills the gap with `n` null objects. -/
def fillNulls (room : ℕ) : ℕ → ℕ → List XpcObject → Except Fault (List XpcObject)
  | _, 0, items => .ok items
  | 0, _ + 1, _ => .error .noObject
  | objects + 1, n + 1, items =>
    match push room items .null with
    | .error e => .error e
    | .ok items => fillNulls room objects n items

/-- `xpc_array_append_value`. -/
def xpcArrayAppendValue (fuel : ℕ) (env : Allocator) (a : Vector XpcObject) (v : XpcObject) :
    Option (Except Fault (Vector XpcObject)) :=
  (ensureCap fuel env a (sizeAdd a.items.length 1)).map fun a =>
    (push a.room a.items v).map fun items => { a with items }

/-- `xpc_array_set_value`. -/
def xpcArraySetValue (fuel : ℕ) (env : Allocator) (a : Vector XpcObject) (index : ℕ)
    (v : XpcObject) : Option (Except Fault (Vector XpcObject)) :=
  if index = xpcArrayAppend then xpcArrayAppendValue fuel env a v
  else if a.items.length ≤ index then
    (ensureCap fuel env a (sizeAdd index 1)).map fun a =>
      match fillNulls a.room env.objects (index - a.items.length) a.items with
      | .error e => .error e
      | .ok items => (push a.room items v).map fun items => { a with items }
  else if a.room < (index + 1) * sizeofPointer then some (.error .overrun)
  else some (.ok { a with items := a.items.set index v })

/-- The vector that the functions build: there is none, or its capacity is a power of two and the
block has room for as many pointers. -/
structure Vector.WellFormed (a : Vector α) : Prop where
  /-- The elements fit. -/
  length_le : a.items.length ≤ a.cap
  /-- The block has room for them. -/
  room : (a.cap = 0 ∧ a.room = 0) ∨
    ∃ j, 2 ≤ j ∧ j ≤ 60 ∧ a.cap = 2 ^ j ∧ a.room = 2 ^ j * sizeofPointer

/-- The call returns, and then there is room for the value and it is stored, with null objects
before it where there was nothing; or the array is as it was. -/
def Stores (env : Allocator) (a : Vector XpcObject) (index : ℕ) (v : XpcObject) : Prop :=
  ∃ fuel a', xpcArraySetValue fuel env a index v = some (.ok a') ∧
    (((index + 1) * sizeofPointer ≤ a'.room ∧ a'.items.length = max a.items.length (index + 1) ∧
      (∀ i, i < a.items.length → i ≠ index → a'.items[i]? = a.items[i]?) ∧
      (∀ i, a.items.length ≤ i → i < index → a'.items[i]? = some .null) ∧
      a'.items[index]? = some v) ∨ a' = a)

/-- The capacity for that many elements: a power of two, and at least 4. -/
def capacityFor (need : ℕ) : ℕ := 2 ^ max 2 (Nat.clog 2 need)

/-- There is room for an element at the index, or the vector can grow to have it, and there are
enough null objects for the gap. -/
def CanHold (env : Allocator) (a : Vector α) (index : ℕ) : Prop :=
  index < a.items.length ∨ (index - a.items.length ≤ env.objects ∧
    (index < a.cap ∨
      index < 2 ^ 60 ∧ env.grants (capacityFor (index + 1) * sizeofPointer) = true))

section

variable {env : Allocator} {a g : Vector α} {need fuel j index room : ℕ}

/-! ## The capacity -/

/-- The loop ends with the least power of two that is enough. -/
theorem growLoop_eq (hneed : need ≤ 2 ^ 63) (hj63 : j ≤ 63) :
    growLoop need 64 (2 ^ j) = some (2 ^ max j (Nat.clog 2 need)) := by
  have hclog : Nat.clog 2 need ≤ 63 := Nat.clog_le_of_le_pow hneed
  have hrun : ∀ k j, j ≤ 63 → max j (Nat.clog 2 need) - j < k →
      growLoop need k (2 ^ j) = some (2 ^ max j (Nat.clog 2 need)) := by
    intro k
    induction k with
    | zero => exact fun _ _ hk => absurd hk (Nat.not_lt_zero _)
    | succ k ih =>
      intro j hj hk
      rw [growLoop]
      by_cases hlt : 2 ^ j < need
      · have hjc : j < Nat.clog 2 need := (Nat.lt_clog_iff_pow_lt Nat.one_lt_two).mpr hlt
        have hdouble : 2 ^ j * 2 % 2 ^ 64 = 2 ^ (j + 1) := by
          rw [← pow_succ]
          exact Nat.mod_eq_of_lt (Nat.pow_lt_pow_right Nat.one_lt_two (by omega))
        have hmax : max (j + 1) (Nat.clog 2 need) = max j (Nat.clog 2 need) := by omega
        rw [if_pos hlt, hdouble, ih (j + 1) (by omega) (by omega), hmax]
      · have hcj : Nat.clog 2 need ≤ j := Nat.clog_le_of_le_pow (Nat.not_lt.mp hlt)
        rw [if_neg hlt, max_eq_left hcj]
  exact hrun 64 j hj63 (by omega)

/-- Above the last power of two of a `size_t` there is none to end with: the doubling arrives at
0 and stays there. -/
theorem growLoop_never (hneed : 2 ^ 63 < need) :
    ∀ fuel newcap, (newcap = 0 ∨ ∃ j, j ≤ 63 ∧ newcap = 2 ^ j) →
      growLoop need fuel newcap = none := by
  intro fuel
  induction fuel with
  | zero => exact fun _ _ => rfl
  | succ fuel ih =>
    intro newcap hcap
    rw [growLoop]
    obtain rfl | ⟨j, hj, rfl⟩ := hcap
    · rw [if_pos (by omega)]
      exact ih _ (.inl (by simp))
    · have hle : 2 ^ j ≤ 2 ^ 63 := Nat.pow_le_pow_right Nat.two_pos hj
      rw [if_pos (by omega)]
      refine ih _ ?_
      rcases Nat.lt_or_eq_of_le hj with hlt | rfl
      · refine .inr ⟨j + 1, hlt, ?_⟩
        rw [← pow_succ]
        exact Nat.mod_eq_of_lt (Nat.pow_lt_pow_right Nat.one_lt_two (by omega))
      · exact .inl (by norm_num)

/-- The capacity that the loop starts from is a power of two. -/
lemma Vector.WellFormed.start (h : a.WellFormed) :
    ∃ j, 2 ≤ j ∧ j ≤ 61 ∧ (if a.cap ≠ 0 then a.cap * 2 % 2 ^ 64 else 4) = 2 ^ j ∧
      (a.cap = 0 ∧ j = 2 ∨ 2 ^ j = a.cap * 2) := by
  rcases h.room with ⟨hcap, -⟩ | ⟨j, hlo, hhi, hcap, -⟩
  · exact ⟨2, le_refl _, by omega, by simp [hcap], .inl ⟨hcap, rfl⟩⟩
  · have hpos : a.cap ≠ 0 := by
      rw [hcap]
      exact pow_ne_zero _ two_ne_zero
    have hdouble : a.cap * 2 = 2 ^ (j + 1) := by rw [hcap, pow_succ]
    refine ⟨j + 1, by omega, by omega, ?_, .inr hdouble.symm⟩
    rw [if_pos hpos, hdouble]
    exact Nat.mod_eq_of_lt (Nat.pow_lt_pow_right Nat.one_lt_two (by omega))

/-- The loop ends for what is not above the last power of two, with the capacity for it. -/
lemma Vector.WellFormed.growLoop_start (h : a.WellFormed) (hlt : a.cap < need)
    (hneed : need ≤ 2 ^ 63) :
    growLoop need 64 (if a.cap ≠ 0 then a.cap * 2 % 2 ^ 64 else 4) = some (capacityFor need) := by
  obtain ⟨j, hlo, hhi, hstart, hj⟩ := h.start
  rw [hstart, growLoop_eq hneed (by omega), capacityFor]
  rcases hj with ⟨-, rfl⟩ | hdouble
  · rfl
  · -- The vector is full at `2 ^ (j - 1)`, so what is asked for is above that.
    have hhalf : 2 ^ (j - 1) < need := by
      obtain ⟨k, rfl⟩ : ∃ k, j = k + 1 := ⟨j - 1, by omega⟩
      rw [pow_succ] at hdouble
      rw [Nat.add_sub_cancel]
      omega
    have hclog := (Nat.lt_clog_iff_pow_lt Nat.one_lt_two).mpr hhalf
    rw [show max j (Nat.clog 2 need) = max 2 (Nat.clog 2 need) by omega]

/-- The loop has one result at most. -/
lemma growLoop_unique {fuel' newcap r r' : ℕ} (h : growLoop need fuel newcap = some r)
    (h' : growLoop need fuel' newcap = some r') : r = r' := by
  induction fuel generalizing fuel' newcap with
  | zero => exact absurd h (by simp [growLoop])
  | succ fuel ih =>
    cases fuel' with
    | zero => exact absurd h' (by simp [growLoop])
    | succ fuel' =>
      rw [growLoop] at h h'
      split at h
      · rename_i hlt
        rw [if_pos hlt] at h'
        exact ih h h'
      · rename_i hlt
        rw [if_neg hlt] at h'
        exact Option.some_inj.mp (h.symm.trans h')

/-- The capacity for what fits is at least that, and a power of two that leaves room for the
multiplication by the size of a pointer. -/
lemma capacityFor_spec (hneed : need ≤ 2 ^ 60) :
    need ≤ capacityFor need ∧ ∃ k, 2 ≤ k ∧ k ≤ 60 ∧ capacityFor need = 2 ^ k := by
  have hclog : Nat.clog 2 need ≤ 60 := Nat.clog_le_of_le_pow hneed
  refine ⟨Nat.le_trans (Nat.le_pow_clog Nat.one_lt_two need) ?_, _, le_max_left _ _, ?_, rfl⟩
  · exact Nat.pow_le_pow_right Nat.two_pos (le_max_right _ _)
  · omega

/-- More rounds change nothing. -/
lemma growLoop_mono {m newcap r : ℕ} (h : growLoop need fuel newcap = some r) (hm : fuel ≤ m) :
    growLoop need m newcap = some r := by
  induction fuel generalizing m newcap with
  | zero => exact absurd h (by simp [growLoop])
  | succ fuel ih =>
    obtain ⟨m, rfl⟩ : ∃ k, m = k + 1 := ⟨m - 1, by omega⟩
    rw [growLoop] at h ⊢
    split at h
    · rename_i hlt
      rw [if_pos hlt]
      exact ih h (by omega)
    · rename_i hlt
      rw [if_neg hlt]
      exact h

/-- A power of two that fits leaves room for the multiplication by the size of a pointer. -/
lemma bytes_of_le (hj : j ≤ 60) : 2 ^ j * sizeofPointer % 2 ^ 64 = 2 ^ j * sizeofPointer := by
  refine Nat.mod_eq_of_lt ?_
  have hle : 2 ^ j ≤ 2 ^ 60 := Nat.pow_le_pow_right Nat.two_pos hj
  rw [sizeofPointer]
  omega

/-- The size in bytes of a larger capacity is 0. -/
lemma bytes_of_gt (hneed : 2 ^ 60 < need) : capacityFor need * sizeofPointer % 2 ^ 64 = 0 := by
  have hclog : 60 < Nat.clog 2 need := (Nat.lt_clog_iff_pow_lt Nat.one_lt_two).mpr hneed
  obtain ⟨k, hk⟩ : ∃ k, max 2 (Nat.clog 2 need) = 61 + k := ⟨max 2 (Nat.clog 2 need) - 61, by omega⟩
  have hbytes : 2 ^ 61 * 2 ^ k * 8 = 2 ^ 64 * 2 ^ k := by omega
  rw [capacityFor, hk, pow_add, sizeofPointer, hbytes]
  exact Nat.mul_mod_right _ _

/-! ## The growth -/

/-- What the growth ends with. -/
lemma ensureCap_cases (h : a.WellFormed) (hg : ensureCap fuel env a need = some g) :
    g.items = a.items ∧ ((need ≤ a.cap ∧ g = a) ∨ (a.cap < need ∧ need ≤ 2 ^ 63 ∧
      g.cap = capacityFor need ∧
      g.room = reallocRoom env a.room (capacityFor need * sizeofPointer % 2 ^ 64))) := by
  rw [ensureCap] at hg
  split at hg
  · rename_i hle
    obtain rfl := Option.some_inj.mp hg
    exact ⟨rfl, .inl ⟨hle, rfl⟩⟩
  · rename_i hle
    obtain ⟨newcap, hloop, rfl⟩ := Option.map_eq_some_iff.mp hg
    have hneed : need ≤ 2 ^ 63 := by
      by_contra hgt
      obtain ⟨j, -, hj, hstart, -⟩ := h.start
      rw [growLoop_never (Nat.not_le.mp hgt) _ _ (.inr ⟨j, by omega, hstart⟩)] at hloop
      cases hloop
    obtain rfl := growLoop_unique hloop (h.growLoop_start (Nat.not_le.mp hle) hneed)
    exact ⟨rfl, .inr ⟨Nat.not_le.mp hle, hneed, rfl, rfl⟩⟩

/-- The growth ends with room for the element when there is, or when the capacity for it fits and the
allocator has the block; 64 rounds are enough. -/
lemma ensureCap_of_fits (h : a.WellFormed) (hcan : index < a.cap ∨
    index < 2 ^ 60 ∧ env.grants (capacityFor (index + 1) * sizeofPointer) = true) :
    ∃ g, (∀ fuel, 64 ≤ fuel → ensureCap fuel env a (index + 1) = some g) ∧
      (index + 1) * sizeofPointer ≤ g.room := by
  by_cases hcap : index < a.cap
  · refine ⟨a, fun _ _ => if_pos hcap, ?_⟩
    rcases h.room with ⟨hzero, -⟩ | ⟨j, -, -, hpow, hroom⟩
    · omega
    · rw [hroom, ← hpow]
      exact Nat.mul_le_mul_right _ hcap
  · obtain hlt | ⟨hlt, hgrant⟩ := hcan
    · exact absurd hlt hcap
    have hloop := h.growLoop_start (show a.cap < index + 1 by omega) (by omega)
    refine ⟨{ a with
      cap := capacityFor (index + 1)
      room := reallocRoom env a.room (capacityFor (index + 1) * sizeofPointer % 2 ^ 64) },
      fun fuel hfuel => ?_, ?_⟩
    · rw [ensureCap, if_neg (by omega), growLoop_mono hloop hfuel]
      rfl
    · obtain ⟨hle, k, -, hk, hpow⟩ := capacityFor_spec (show index + 1 ≤ 2 ^ 60 from hlt)
      have hpos : 2 ^ k * sizeofPointer ≠ 0 := by simp [sizeofPointer]
      rw [hpow] at hgrant hle ⊢
      rw [bytes_of_le hk, reallocRoom, if_neg (by simp [hpos]), if_pos hgrant, if_neg hpos]
      exact Nat.mul_le_mul_right _ hle

/-- The growth ends with room for the element exactly when there is, or when the capacity for it
fits and the allocator has the block. -/
theorem ensureCap_room (h : a.WellFormed) :
    (∃ fuel g, ensureCap fuel env a (index + 1) = some g ∧
      (index + 1) * sizeofPointer ≤ g.room) ↔
    (index < a.cap ∨
      index < 2 ^ 60 ∧ env.grants (capacityFor (index + 1) * sizeofPointer) = true) := by
  constructor
  · rintro ⟨fuel, g, hg, hroom⟩
    obtain ⟨-, ⟨hle, -⟩ | ⟨-, -, -, hblock⟩⟩ := ensureCap_cases h hg
    · exact .inl hle
    · right
      rw [hblock] at hroom
      by_cases hlt : index < 2 ^ 60
      · obtain ⟨-, k, -, hk, hpow⟩ := capacityFor_spec (show index + 1 ≤ 2 ^ 60 from hlt)
        refine ⟨hlt, ?_⟩
        by_contra hno
        rw [hpow] at hno hroom
        rw [bytes_of_le hk, reallocRoom, if_neg hno] at hroom
        simp [sizeofPointer] at hroom
      · -- The size is 0, for which there are 16 bytes at most.
        rw [bytes_of_gt (by omega), reallocRoom] at hroom
        have hsmall : (if a.room ≠ 0 ∧ 0 = 0 then 0
            else if env.grants 0 = true then (if 0 = 0 then 16 else 0) else 0) ≤ 16 := by
          split
          · omega
          · split <;> simp
        rw [sizeofPointer] at hroom
        omega
  · intro hcan
    obtain ⟨g, hg, hroom⟩ := ensureCap_of_fits h hcan
    exact ⟨64, g, hg 64 (le_refl 64), hroom⟩

/-! ## The stores -/

/-- The store that has a block to go to. -/
lemma push_eq_ok {items items' : List α} {v : α} : push room items v = .ok items' ↔
    (items.length + 1) * sizeofPointer ≤ room ∧ items' = items ++ [v] := by
  rw [push]
  split
  · simp
    omega
  · simp only [Except.ok.injEq]
    exact ⟨fun h => ⟨by omega, h.symm⟩, fun h => h.2.symm⟩

variable {a a' : Vector XpcObject} {objects n : ℕ} {v : XpcObject} {items items' : List XpcObject}

/-- The gap is filled when there are the objects for it and the block has room. -/
lemma fillNulls_eq_ok : fillNulls room objects n items = .ok items' ↔
    n ≤ objects ∧ (n = 0 ∨ (items.length + n) * sizeofPointer ≤ room) ∧
      items' = items ++ List.replicate n .null := by
  induction n generalizing objects items with
  | zero => cases objects <;> simp [fillNulls, eq_comm]
  | succ n ih =>
    cases objects with
    | zero => simp [fillNulls]
    | succ objects =>
      rw [fillNulls]
      cases hp : push room items XpcObject.null with
      | error e =>
        have hno : room < (items.length + 1) * sizeofPointer := by
          by_contra hle
          rw [push, if_neg hle] at hp
          cases hp
        simp only [reduceCtorEq, false_iff, not_and, Nat.succ_ne_zero, false_or]
        intro _ hroom
        have hmono : (items.length + 1) * sizeofPointer ≤ (items.length + (n + 1)) * sizeofPointer :=
          Nat.mul_le_mul_right _ (by omega)
        omega
      | ok next =>
        obtain ⟨hfits, rfl⟩ := push_eq_ok.1 hp
        simp only [ih, List.length_append, List.length_singleton, List.append_assoc,
          Nat.succ_ne_zero, false_or, Nat.add_le_add_iff_right]
        rw [show items.length + 1 + n = items.length + (n + 1) by omega,
          show [XpcObject.null] ++ List.replicate n XpcObject.null
            = List.replicate (n + 1) XpcObject.null from rfl]
        refine and_congr_right fun _ => and_congr_left fun _ => ⟨?_, .inr⟩
        rintro (rfl | hroom)
        · exact hfits
        · exact hroom

/-- What storing behind the last element comes to. -/
lemma setValue_behind (hge : a.items.length ≤ index) (hindex : index < xpcArrayAppend)
    (h : a.WellFormed) :
    xpcArraySetValue fuel env a index v = some (.ok a') ↔
      ∃ g, ensureCap fuel env a (index + 1) = some g ∧ index - a.items.length ≤ env.objects ∧
        (index + 1) * sizeofPointer ≤ g.room ∧
        a' = { g with items := a.items ++ List.replicate (index - a.items.length) .null ++ [v] } := by
  have hadd : sizeAdd index 1 = index + 1 := sizeAdd_of_lt (by rw [xpcArrayAppend] at hindex; omega)
  rw [xpcArraySetValue, if_neg (Nat.ne_of_lt hindex), if_pos hge, hadd, Option.map_eq_some_iff]
  refine exists_congr fun g => and_congr_right fun hg => ?_
  obtain ⟨hitems, -⟩ := ensureCap_cases h hg
  rw [hitems]
  have hlen : (a.items ++ List.replicate (index - a.items.length) XpcObject.null).length = index := by
    simp
    omega
  constructor
  · intro hstore
    split at hstore
    · cases hstore
    · rename_i filled hfill
      obtain ⟨hobj, -, rfl⟩ := fillNulls_eq_ok.1 hfill
      rw [push] at hstore
      split at hstore
      · cases hstore
      · rename_i hroom
        rw [hlen] at hroom
        exact ⟨hobj, Nat.not_lt.mp hroom, (Except.ok.inj hstore).symm⟩
  · rintro ⟨hobj, hroom, rfl⟩
    have hmono : (a.items.length + (index - a.items.length)) * sizeofPointer ≤ g.room :=
      Nat.le_trans (Nat.mul_le_mul_right _ (by omega)) hroom
    rw [fillNulls_eq_ok.2 ⟨hobj, .inr hmono, rfl⟩]
    simp only [push, hlen]
    rw [if_neg (Nat.not_lt.mpr hroom)]
    rfl

/-- What storing in the place of an element comes to. -/
lemma setValue_inside (hlt : index < a.items.length) (h : a.WellFormed) :
    xpcArraySetValue fuel env a index v = some (.ok { a with items := a.items.set index v }) ∧
      (index + 1) * sizeofPointer ≤ a.room := by
  have hcap := h.length_le
  rcases h.room with ⟨hzero, -⟩ | ⟨j, -, hj, hpow, hroom⟩
  · omega
  have hle : 2 ^ j ≤ 2 ^ 60 := Nat.pow_le_pow_right Nat.two_pos hj
  have hfits : (index + 1) * sizeofPointer ≤ a.room := by
    rw [hroom, ← hpow]
    exact Nat.mul_le_mul_right _ (by omega)
  have hindex : index ≠ xpcArrayAppend := by
    rw [xpcArrayAppend]
    omega
  rw [xpcArraySetValue, if_neg hindex, if_neg (Nat.not_le.mpr hlt), if_neg (Nat.not_lt.mpr hfits)]
  exact ⟨rfl, hfits⟩

/-- An element is replaced in its place, and the others are as they were. -/
lemma stores_inside (hlt : index < a.items.length) (h : a.WellFormed) : Stores env a index v := by
  obtain ⟨hcall, hroom⟩ : xpcArraySetValue 0 env a index v =
      some (.ok { a with items := a.items.set index v }) ∧ (index + 1) * sizeofPointer ≤ a.room :=
    setValue_inside hlt h
  refine ⟨0, _, hcall, .inl ⟨hroom, ?_, ?_, ?_, ?_⟩⟩
  · rw [List.length_set]
    omega
  · intro i _ hne
    exact List.getElem?_set_ne hne.symm
  · intro i hge hi
    omega
  · exact List.getElem?_set_self hlt

/-- Behind the last element the call stores the value exactly when there is room or the vector can
grow, and the gap can be filled. -/
lemma stores_behind (hge : a.items.length ≤ index) (hindex : index < xpcArrayAppend)
    (h : a.WellFormed) : Stores env a index v ↔ CanHold env a index := by
  constructor
  · rintro ⟨fuel, a', hcall, -⟩
    obtain ⟨g, hg, hobj, hroom, -⟩ := (setValue_behind hge hindex h).mp hcall
    exact .inr ⟨hobj, (ensureCap_room h).mp ⟨fuel, g, hg, hroom⟩⟩
  · rintro (hlt | ⟨hobj, hcan⟩)
    · exact absurd hlt (Nat.not_lt.mpr hge)
    · obtain ⟨fuel, g, hg, hroom⟩ := (ensureCap_room h).mpr hcan
      have hcall := (setValue_behind (v := v) hge hindex h).mpr ⟨g, hg, hobj, hroom, rfl⟩
      have hlen : (a.items ++ List.replicate (index - a.items.length) XpcObject.null).length
          = index := by
        simp
        omega
      refine ⟨fuel, _, hcall, .inl ⟨hroom, ?_, ?_, ?_, ?_⟩⟩
      · rw [List.length_append, hlen, List.length_singleton]
        omega
      · intro i hi _
        rw [List.append_assoc]
        exact List.getElem?_append_left hi
      · intro i hi hlt
        rw [List.getElem?_append_left (by omega), List.getElem?_append_right hi]
        exact List.getElem?_replicate_of_lt (by omega)
      · rw [List.getElem?_append_right (by omega), hlen, Nat.sub_self]
        rfl

/-- **When the vector grows as far as it is asked to.** A call with an index other than
`XPC_ARRAY_APPEND` returns with room for the element, the value stored, nulls in the gap and the
others as they were, exactly when there is an element in that place, or there are null objects for
the gap and either the vector has room already, or the index is below `2 ^ 60` and the allocator has
the block. Above that the doubled capacity does not fit in a `size_t`, or its size in bytes does
not.

**Proof sketch.** The capacity is a power of two, so the loop ends with the least one that is enough
if that is a `size_t`, and runs into 0 if it is not. Times the size of a pointer it is 0 from
`2 ^ 61` on, for which `realloc` gives 16 bytes at most, and the store behind them is out of the
block. -/
theorem stores_iff (h : a.WellFormed) (hsize : index < 2 ^ 64) (hindex : index ≠ xpcArrayAppend) :
    Stores env a index v ↔ CanHold env a index := by
  rcases Nat.lt_or_ge index a.items.length with hlt | hge
  · exact ⟨fun _ => .inl hlt, fun _ => stores_inside hlt h⟩
  · refine stores_behind hge ?_ h
    rw [xpcArrayAppend] at hindex ⊢
    omega

/-- A new array, an index and an allocator that has the block. -/
theorem stores_iff_fourth :
    Stores ⟨fun bytes => decide (bytes ≤ 64), 8⟩ xpcArrayCreateEmpty 3 (.bool true) ↔
      CanHold ⟨fun bytes => decide (bytes ≤ 64), 8⟩ xpcArrayCreateEmpty 3 :=
  stores_iff ⟨le_refl 0, .inl ⟨rfl, rfl⟩⟩ (by norm_num) (by norm_num [xpcArrayAppend])

/-- In a new array the value for `2 ^ 63` is not stored, whatever the allocator has: no doubling
reaches the capacity. -/
theorem not_stores_pow63 :
    ¬ ∀ (env : Allocator) (a : Vector XpcObject) (index : ℕ) (v : XpcObject), a.WellFormed → index < 2 ^ 64 →
      index ≠ xpcArrayAppend → Stores env a index v := by
  intro hall
  have hnew : xpcArrayCreateEmpty.WellFormed := ⟨le_refl 0, .inl ⟨rfl, rfl⟩⟩
  have hstores := hall ⟨fun _ => true, 2 ^ 64⟩ xpcArrayCreateEmpty (2 ^ 63) .null hnew (by norm_num)
    (by norm_num [xpcArrayAppend])
  rcases (stores_behind (Nat.zero_le _) (by norm_num [xpcArrayAppend]) hnew).mp hstores with
    hlt | ⟨-, hlt | ⟨hlt, -⟩⟩
  · simp [xpcArrayCreateEmpty] at hlt
  · simp [xpcArrayCreateEmpty] at hlt
  · norm_num at hlt

/-! ## The vectors that there are -/

/-- The growth keeps the vector well-formed, if it has given room for what was asked. -/
lemma Vector.WellFormed.ensureCap {a g : Vector α} {items : List α} (h : a.WellFormed) (hg : ensureCap fuel env a need = some g)
    (hroom : need * sizeofPointer ≤ g.room) (hitems : items.length = need) :
    Vector.WellFormed { g with items } := by
  obtain ⟨-, ⟨hle, rfl⟩ | ⟨hlt, -, hcap, hblock⟩⟩ := ensureCap_cases h hg
  · exact ⟨hitems ▸ hle, h.room⟩
  · rw [hblock] at hroom
    rcases Nat.lt_or_ge (2 ^ 60) need with hbig | hsmall
    · rw [bytes_of_gt hbig, reallocRoom, sizeofPointer] at hroom
      split at hroom
      · omega
      · split at hroom
        · simp at hroom
          omega
        · omega
    · obtain ⟨hle, k, hlo, hk, hpow⟩ := capacityFor_spec hsmall
      have hpos : 2 ^ k * sizeofPointer ≠ 0 := by simp [sizeofPointer]
      rw [hpow] at hblock hcap hle hroom
      rw [bytes_of_le hk, reallocRoom, if_neg (by simp [hpos]), if_neg hpos] at hblock hroom
      refine ⟨?_, .inr ⟨k, hlo, hk, hcap, ?_⟩⟩
      · simp only [hitems, hcap]
        exact hle
      · split at hblock
        · exact hblock
        · rename_i hno
          rw [if_neg hno, sizeofPointer] at hroom
          omega

end

end Asteros.Xpc
