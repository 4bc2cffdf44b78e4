import Asteros.Libc.CTypes
import Asteros.Lib.AddressRange
import Mathlib.Tactic.Simps.Basic

set_option autoImplicit false

/-!
# The boot loader

What `efi_main` places in physical memory, from the load commands of the kernel to the point where
it fills in `ba->ksize`, and the memory map that it gets afterwards: the segments of the kernel at
the addresses they ask for, and behind the last one, bump-allocated, `boot_args`, the RAM disk, the
device tree and a buffer for the memory map. The run is kept as a list of the objects with the pages
allocated for them, and a list of the ranges that were written for them.

The firmware decides which allocations and reads succeed. An allocation succeeds only on free pages,
and a memory map fits in the buffer it is written to and is made of whole descriptors, of which
there is one at least; nothing else is assumed of it. Addresses are numbers, with the arithmetic of
the code.

## Main definitions

* `Firmware` — what the firmware decides.
* `loadSegment`, `loadCommands` — the segments of the kernel.
* `allocLow`, `efiMain` — what lies behind them.
-/

namespace Asteros.Boot

open Asteros.Libc AddressRange

/-! ## Memory -/

/-- `PAGE_SIZE`. -/
def pageSize : ℕ := 4096

/-- `pages_for`. -/
def pagesFor (size : ℕ) : ℕ := sizeSub (sizeAdd size pageSize) 1 / pageSize

/-- What the loader places in memory. -/
inductive Object where
  /-- The segment of the `i`-th load command. -/
  | segment (i : ℕ)
  /-- `boot_args`. -/
  | bootArgs
  /-- The RAM disk. -/
  | ramdisk
  /-- The device tree. -/
  | deviceTree
  /-- The buffer of the memory map. -/
  | memoryMap
  deriving DecidableEq

/-- What `GetMemoryMap` returns. -/
structure MemoryMap where
  /-- The size of the map in bytes. -/
  size : ℕ
  /-- The size of a descriptor. -/
  descSize : ℕ
  /-- There is a descriptor at least. -/
  size_pos : 0 < size
  /-- The map fits in the eight pages of the buffer. -/
  size_le : size ≤ 8 * pageSize
  /-- A descriptor is an `EFI_MEMORY_DESCRIPTOR` at least. -/
  descSize_ge : 40 ≤ descSize
  /-- The map is made of whole descriptors. -/
  dvd : descSize ∣ size

/-- The firmware. -/
structure Firmware where
  /-- The ranges that are in use when the loader is started, or that it has for other purposes. -/
  used : List Range
  /-- `AllocatePages(AllocateAddress, …)`: with these ranges in use, whether it gives so many pages
  at an address. -/
  allocatePages : List Range → ℕ → ℕ → Bool
  /-- It succeeds only on free pages. -/
  free : ∀ inUse pages addr, allocatePages inUse pages addr = true → pageSize ∣ addr ∧
    addr + pages * pageSize ≤ 2 ^ 64 ∧ ∀ r ∈ inUse, r.Apart ⟨addr, pages * pageSize⟩
  /-- Whether so many bytes can be read from the kernel file at a position. -/
  readKernel : ℕ → ℕ → Bool
  /-- The `FileSize` of the RAM disk image, if that can be opened. -/
  ramdiskSize : Option ℕ
  /-- It is a `UINT64`. -/
  ramdiskSize_lt : ∀ n ∈ ramdiskSize, n < 2 ^ 64
  /-- Whether so many bytes can be read from it. -/
  readRamdisk : ℕ → Bool
  /-- What `GetMemoryMap` returns in an attempt, if it succeeds. -/
  getMemoryMap : ℕ → Option MemoryMap
  /-- Whether `ExitBootServices` succeeds in an attempt. -/
  exitBootServices : ℕ → Bool

/-! ## The kernel -/

/-- The members of a `segment_command_64` that the loader reads. -/
structure Segment where
  /-- `vmaddr`. -/
  vmaddr : ℕ
  /-- `vmsize`. -/
  vmsize : ℕ
  /-- `fileoff`. -/
  fileoff : ℕ
  /-- `filesize`. -/
  filesize : ℕ
  /-- It is a `uint64_t`. -/
  vmsize_lt : vmsize < 2 ^ 64
  /-- So is this. -/
  filesize_lt : filesize < 2 ^ 64

/-- A load command. -/
inductive LoadCommand where
  /-- `LC_SEGMENT_64`. -/
  | segment (seg : Segment)
  /-- `LC_UNIXTHREAD`, with `rip` if the flavor is `x86_THREAD_STATE64`. -/
  | unixThread (rip : Option ℕ)
  /-- Another one. -/
  | other

/-- The variables of `efi_main`, with what was placed and written so far. -/
structure Loader where
  /-- The objects, with the pages allocated for them. -/
  objects : List (Object × Range) := []
  /-- The ranges written for objects. -/
  writes : List (Object × Range) := []
  /-- The physical addresses and sizes that were converted to a `uint32_t`. -/
  converted : List ℕ := []
  /-- `kaddr_low32`. -/
  kaddrLow32 : ℕ := 0xFFFFFFFF
  /-- `kend_low32`. -/
  kendLow32 : ℕ := 0
  /-- `have_seg`. -/
  haveSeg : Bool := false
  /-- `entry_virt`, if `have_entry`. -/
  entryVirt : Option ℕ := none
  /-- `g_low_alloc_next`. -/
  gLowAllocNext : ℕ := 0

namespace Loader

/-- Some ranges are written for an object. -/
@[simps] def write (l : Loader) (o : Object) (rs : List Range) : Loader :=
  { l with writes := rs.map (o, ·) ++ l.writes }

/-- Some values are converted to a `uint32_t`. -/
@[simps] def convert (l : Loader) (ns : List ℕ) : Loader :=
  { l with converted := ns ++ l.converted }

/-- The pages of an object are allocated. -/
@[simps] def place (l : Loader) (o : Object) (addr pages : ℕ) : Loader :=
  { l with objects := (o, ⟨addr, pages * pageSize⟩) :: l.objects }

/-- `g_low_alloc_next` is set. -/
@[simps] def setLowAllocNext (l : Loader) (next : ℕ) : Loader := { l with gLowAllocNext := next }

end Loader

/-- `AllocatePages(AllocateAddress, EfiLoaderData, pages, &addr)`. -/
def allocatePages (fw : Firmware) (l : Loader) (o : Object) (pages addr : ℕ) : Option Loader :=
  if fw.allocatePages (fw.used ++ l.objects.map Prod.snd) pages addr then
    some (l.place o addr pages)
  else none

namespace Segment

/-- `seg_phys`. -/
def segPhys (seg : Segment) : ℕ := toUint32 seg.vmaddr

/-- `seg_pages`. -/
def segPages (seg : Segment) : ℕ := toUint32 (pagesFor seg.vmsize)

end Segment

/-- The bytes of a segment: those in the file, and zeros. -/
def fillSegment (fw : Firmware) (l : Loader) (i : ℕ) (seg : Segment) : Option Loader :=
  let read :=
    if 0 < seg.filesize then
      if fw.readKernel seg.fileoff seg.filesize then
        some (l.write (.segment i) [⟨seg.segPhys, seg.filesize⟩])
      else none
    else some l
  read.map fun l =>
    if seg.filesize < seg.vmsize then
      l.write (.segment i)
        [⟨sizeAdd seg.segPhys seg.filesize, sizeSub seg.vmsize seg.filesize⟩]
    else l

/-- The variables `kaddr_low32`, `kend_low32` and `have_seg` after a segment. -/
def noteSegment (l : Loader) (seg : Segment) : Loader :=
  let l := if seg.segPhys < l.kaddrLow32 then { l with kaddrLow32 := seg.segPhys } else l
  let l :=
    if l.kendLow32 < sizeAdd seg.segPhys seg.vmsize then
      { l with kendLow32 := sizeAdd seg.segPhys seg.vmsize }
    else l
  { l with haveSeg := true }

/-- The branch of the loop of `efi_main` for an `LC_SEGMENT_64`. -/
def loadSegment (fw : Firmware) (l : Loader) (i : ℕ) (seg : Segment) : Option Loader :=
  let l := l.convert [pagesFor seg.vmsize]
  if seg.vmsize = 0 then some l
  else do
    let l ← allocatePages fw l (.segment i) seg.segPages seg.segPhys
    let l ← fillSegment fw l i seg
    some (noteSegment l seg)

/-- The loop of `efi_main` over the load commands, from the `i`-th on. -/
def loadCommands (fw : Firmware) (l : Loader) : ℕ → List LoadCommand → Option Loader
  | _, [] => some l
  | i, .segment seg :: cmds =>
    match loadSegment fw l i seg with
    | none => none
    | some l => loadCommands fw l (i + 1) cmds
  | i, .unixThread (some rip) :: cmds =>
    loadCommands fw { l with entryVirt := some rip } (i + 1) cmds
  | i, .unixThread none :: cmds => loadCommands fw l (i + 1) cmds
  | i, .other :: cmds => loadCommands fw l (i + 1) cmds

/-! ## Behind the kernel -/

/-- `alloc_low`: the address, and the variables after it. -/
def allocLow (fw : Firmware) (l : Loader) (o : Object) (pages : ℕ) : Option (ℕ × Loader) :=
  let addr := l.gLowAllocNext
  (allocatePages fw l o pages addr).map fun l =>
    (addr, l.setLowAllocNext (sizeAdd addr (pages * pageSize % 2 ^ 64)))

/-- `sizeof(boot_args)`. -/
def sizeofBootArgs : ℕ := 4096

/-- The RAM disk: its address and size, and the variables after it. -/
def loadRamdisk (fw : Firmware) (l : Loader) : Option Loader := do
  let fileSize ← fw.ramdiskSize
  let rdPages := pagesFor fileSize
  let (ramdiskPhys, l) ← allocLow fw l .ramdisk rdPages
  let l := l.write .ramdisk [⟨ramdiskPhys, rdPages * pageSize % 2 ^ 64⟩]
  if fw.readRamdisk fileSize then some (l.write .ramdisk [⟨ramdiskPhys, fileSize⟩]) else none

/-- `dt_put_node`: the cursor, and the writes. -/
def dtPutNode (cursor : ℕ) : ℕ × List Range := (cursor + 8, [⟨cursor, 4⟩, ⟨cursor + 4, 4⟩])

/-- `dt_put_prop`, for a name and a value of these lengths. -/
def dtPutProp (cursor nameLen valueLen : ℕ) : ℕ × List Range :=
  (cursor + (36 + valueLen + 3) / 4 * 4,
    [⟨cursor, 32⟩, ⟨cursor, nameLen⟩, ⟨cursor + 32, 4⟩, ⟨cursor + 36, valueLen⟩])

/-- The nodes and properties of the device tree: none for a node, and for a property the lengths of
its name and its value. -/
def deviceTree : List (Option (ℕ × ℕ)) :=
  [none, some ("name".length, "device-tree".length + 1),
    none, some ("name".length, "chosen".length + 1), some ("random-seed".length, 64),
    none, some ("name".length, "memory-map".length + 1), some ("RAMDisk".length, 16)]

/-- The device tree is put at a cursor. -/
def dtPut (cursor : ℕ) : List (Option (ℕ × ℕ)) → ℕ × List Range
  | [] => (cursor, [])
  | item :: items =>
    let put :=
      match item with
      | none => dtPutNode cursor
      | some (nameLen, valueLen) => dtPutProp cursor nameLen valueLen
    let rest := dtPut put.1 items
    (rest.1, put.2 ++ rest.2)

/-- `BOOT_LINE_LENGTH`. -/
def bootLineLength : ℕ := 1024

/-- `offsetof(boot_args, CommandLine)`. -/
def commandLineOff : ℕ := 8

/-- The default command line. -/
def defaultCmdline : String := "keepsyms=1 debug=0x14C rd=md0 vti=0 serial=2 vm_compressor=2"

/-- What is written to `ba->CommandLine`, from its start on, with so many characters entered at the
prompt. -/
def commandLineWrites (userLen : ℕ) : List Range :=
  let n := defaultCmdline.length
  let n := if bootLineLength ≤ n then bootLineLength - 1 else n
  if 0 < userLen ∧ n < bootLineLength - 1 then
    let avail := bootLineLength - 1 - (n + 1)
    let userLen := if avail < userLen then avail else userLen
    [⟨0, n⟩, ⟨n, 1⟩, ⟨n + 1, userLen⟩, ⟨n + 1 + userLen, 1⟩]
  else [⟨0, n⟩, ⟨n, 1⟩]

/-- The other members of `boot_args` that are filled in, by their offset and size: `Revision`,
`Version`, `efiMode`, the four of the memory map, `deviceTreeP`, `deviceTreeLength`, `kaddr`,
`ksize`, `PhysicalMemorySize`, and those of `Video`. -/
def bootArgsFields : List Range :=
  [⟨0, 2⟩, ⟨2, 2⟩, ⟨4, 1⟩, ⟨1032, 4⟩, ⟨1036, 4⟩, ⟨1040, 4⟩, ⟨1044, 4⟩, ⟨1072, 4⟩, ⟨1076, 4⟩,
    ⟨1080, 4⟩, ⟨1084, 4⟩, ⟨1144, 8⟩, ⟨1192, 4⟩, ⟨1196, 4⟩, ⟨1200, 4⟩, ⟨1204, 4⟩, ⟨1208, 4⟩,
    ⟨1240, 8⟩]

/-- What is written to `boot_args` after it was cleared. -/
def bootArgsWrites (userLen : ℕ) : List Range :=
  bootArgsFields ++ (commandLineWrites userLen).map fun r => ⟨commandLineOff + r.start, r.len⟩

/-- Ranges from an address on. -/
def rangesAt (base : ℕ) (rs : List Range) : List Range := rs.map fun r => ⟨base + r.start, r.len⟩

/-- What is written to the buffer of the memory map: the map by the firmware, and the `Attribute` of
each descriptor. -/
def memoryMapWrites (m : MemoryMap) : List Range :=
  ⟨0, m.size⟩ :: (List.range (m.size / m.descSize)).map fun k => ⟨k * m.descSize + 32, 8⟩

/-- The loop of `efi_main` that gets the memory map and calls `ExitBootServices`: the maps it gets,
in at most so many attempts. -/
def memoryMaps (fw : Firmware) : ℕ → ℕ → List MemoryMap
  | 0, _ => []
  | tries + 1, attempt =>
    match fw.getMemoryMap attempt with
    | none => []
    | some m => m :: if fw.exitBootServices attempt then [] else memoryMaps fw tries (attempt + 1)

/-- What `boot_args` tells the kernel. -/
structure HandOff where
  /-- What was placed and written, that is, the loader at the end. -/
  loader : Loader
  /-- `ba->kaddr`. -/
  kaddr : ℕ
  /-- `ba->ksize`. -/
  ksize : ℕ

/-- `efi_main`, as far as it places and writes objects: the hand-off, if it gets to the point where
`ba->ksize` is filled in. The memory maps come after that point. -/
def efiMain (fw : Firmware) (cmds : List LoadCommand) (userLen : ℕ) : Option HandOff := do
  let l ← loadCommands fw {} 0 cmds
  let _entryVirt ← l.entryVirt
  if l.haveSeg = false then none
  else
    let kaddr := toUint32 l.kaddrLow32
    let l := (l.convert [l.kaddrLow32]).setLowAllocNext l.kendLow32
    let (baPhys, l) ← allocLow fw l .bootArgs (pagesFor sizeofBootArgs)
    let l := l.write .bootArgs [⟨baPhys, sizeofBootArgs⟩]
    let l ← loadRamdisk fw l
    let (dtPhys, l) ← allocLow fw l .deviceTree 1
    let l := l.write .deviceTree [⟨dtPhys, pageSize⟩]
    let (dtSize, put) := dtPut 0 deviceTree
    let l := l.write .deviceTree (rangesAt dtPhys put)
    let (mmapPhys, l) ← allocLow fw l .memoryMap 8
    let l := l.write .bootArgs (rangesAt baPhys (bootArgsWrites userLen))
    let size := sizeSub l.gLowAllocNext l.kaddrLow32
    let l := l.convert [dtPhys, dtSize, size, baPhys]
    let maps := memoryMaps fw 4 0
    let l := l.write .memoryMap (maps.flatMap fun m => rangesAt mmapPhys (memoryMapWrites m))
    let l := l.convert (maps.flatMap fun m => [mmapPhys, m.size, m.descSize])
    some { loader := l, kaddr, ksize := toUint32 size }

end Asteros.Boot
