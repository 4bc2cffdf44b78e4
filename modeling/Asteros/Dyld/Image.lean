import Asteros.Dyld.Uleb

set_option autoImplicit false

/-!
# Images

The record that the dynamic linker keeps of a loaded Mach-O file. The images are the entries of one
table, so an image refers to another by its index there. A null pointer is the address zero.

## Main definitions

* `Segment`, `Image` — the records.
* `imageAddr` — where an address of the file is in memory.
-/

namespace Asteros.Dyld

open Asteros.Libc

/-- `struct segment`. -/
structure Segment where
  vmaddr : ℕ
  vmsize : ℕ
  fileoff : ℕ
  filesize : ℕ
  deriving DecidableEq

/-- A pair of pointers `*_start`, `*_end`. -/
structure Stream where
  start : ℕ
  fend : ℕ
  deriving DecidableEq

/-- The pointers of a stream that the file does not have. -/
def Stream.null : Stream := ⟨0, 0⟩

/-- `struct image`. -/
structure Image where
  path : List UInt8
  mh : ℕ
  slide : ℕ
  segs : List Segment
  rebase : Stream
  bind : Stream
  weakBind : Stream
  lazyBind : Stream
  exports : Stream
  deps : List ℕ
  deriving DecidableEq

/-- `image_addr`. -/
def imageAddr (im : Image) (unslid : ℕ) : ℕ := sizeAdd unslid im.slide

end Asteros.Dyld
