import Asteros.Lib.ByteMemory

set_option autoImplicit false

/-!
# Chunk headers

A `struct chunk` lies in memory in front of its payload: the size of the payload, the flag that
says it is free, and the next chunk of the list, padded to 32 bytes. A pointer `c` to one is its
address, and `c->size` a number read from the memory there.

## Main definitions

* `Field` — the members of `struct chunk`, with their place in it.
* `get`, `set` — a member read and written.

## Main results

* `get_set_same`, `get_set_ne`, `get_set_apart` — a member read after a member was written.
* `get_congr` — a header is 32 bytes and no more.
-/

namespace Asteros.Malloc

open ByteMemory

/-- The members of `struct chunk`; nothing reads `_pad`. -/
inductive Field where
  /-- `size_t size`. -/
  | size
  /-- `int free`. -/
  | free
  /-- `struct chunk *next`. -/
  | next
  deriving DecidableEq

/-- The offset of a member. -/
def Field.offset : Field → ℕ
  | .size => 0
  | .free => 8
  | .next => 16

/-- The number of bytes of a member. -/
def Field.width : Field → ℕ
  | .size => 8
  | .free => 4
  | .next => 8

/-- `sizeof(struct chunk)`. -/
def sizeofChunk : ℕ := 32

/-- `c->f`. -/
def get (m : ℕ → UInt8) (c : ℕ) (f : Field) : ℕ := loadNat m (c + f.offset) f.width

/-- `c->f = v`. -/
def set (m : ℕ → UInt8) (c : ℕ) (f : Field) (v : ℕ) : ℕ → UInt8 :=
  storeNat m (c + f.offset) f.width v

variable {m m' : ℕ → UInt8} {c d v : ℕ} {f g : Field}

/-- A member lies in the header. -/
lemma Field.offset_add_width_le (f : Field) : f.offset + f.width ≤ sizeofChunk := by
  cases f <;> decide

/-- Two members lie beside each other. -/
lemma Field.apart (h : f ≠ g) : f.offset + f.width ≤ g.offset ∨ g.offset + g.width ≤ f.offset := by
  cases f <;> cases g <;> simp_all [Field.offset, Field.width]

/-- A member only depends on the header. -/
lemma get_congr (h : ∀ x, c ≤ x → x < c + sizeofChunk → m x = m' x) : get m c f = get m' c f := by
  have hin := f.offset_add_width_le
  exact loadNat_congr fun x hx hx' => h x (by omega) (by omega)

/-- A write to a header does not change the memory outside it. -/
lemma set_of_not_mem {x : ℕ} (h : x < c ∨ c + sizeofChunk ≤ x) : set m c f v x = m x := by
  have hin := f.offset_add_width_le
  exact storeNat_of_not_mem (by omega)

/-- The member that was just written. -/
@[simp] lemma get_set_same (h : v < 256 ^ f.width) : get (set m c f v) c f = v :=
  loadNat_storeNat_same h

/-- Another member of the header that was just written. -/
@[simp] lemma get_set_ne (h : f ≠ g) : get (set m c g v) c f = get m c f := by
  have hapart := Field.apart h
  exact loadNat_storeNat_of_disjoint (by omega)

/-- A member of another header. -/
lemma get_set_apart (h : c + sizeofChunk ≤ d ∨ d + sizeofChunk ≤ c) :
    get (set m d g v) c f = get m c f :=
  get_congr fun _ _ _ => set_of_not_mem (by omega)

/-- A `size_t` or pointer member holds 64 bits. -/
lemma get_size_lt (m : ℕ → UInt8) (c : ℕ) : get m c .size < 2 ^ 64 := by
  simpa [get, Field.width] using loadNat_lt m (c + Field.size.offset) Field.size.width

end Asteros.Malloc
