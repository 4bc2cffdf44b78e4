import Asteros.Dyld.Image
import Asteros.Libc.Ascii

set_option autoImplicit false

/-!
# Loading

`macho_load.c` and the part of `dyld_main.c` that loads images and runs their initializers. An
image is parsed as it is loaded, and parsing loads its dependencies, which are added to `g_images`
behind it. The load commands of an image are the ones of its file; rebasing and binding, which come
between loading and the initializers, change no table.

The table remembers what the program does not keep: the file and load commands of an image, where
dylibs have been put, and the calls of `image_load_dependency`.

## Main definitions

* `LoadCommand` — load commands.
* `Kernel` — files and memory as the kernel has them.
* `Table`, `Loader` — `g_images`, and computations on it.
* `imageParseLoaded`, `imageLoadDependency` — loading.
* `dyldBootstrapMain` — what runs it, and the initializers after it.
-/

namespace Asteros.Dyld

open Asteros.Libc

/-! ## Images in files -/

/-- `IMAGE_MAX`. -/
def imageMax : ℕ := 16

/-- `IMAGE_MAX_SEGMENTS`. -/
def imageMaxSegments : ℕ := 12

/-- `IMAGE_MAX_DEPS`. -/
def imageMaxDeps : ℕ := 8

/-- `DYLIB_SLOT_SIZE`. -/
def dylibSlotSize : ℕ := 0x10000000

/-- The size of the field `path` of an image without its NUL. -/
def pathMax : ℕ := 255

/-- `struct section_64`. -/
structure SectionHeader where
  flags : UInt32
  addr : UInt64
  size : UInt64
  deriving DecidableEq

/-- `struct segment_command_64`. -/
structure SegmentCommand where
  vmaddr : UInt64
  vmsize : UInt64
  fileoff : UInt64
  filesize : UInt64
  sections : List SectionHeader
  deriving DecidableEq

/-- An offset and a size of `struct dyld_info_command`. -/
structure InfoRange where
  off : UInt32
  size : UInt32
  deriving DecidableEq

/-- A load command. -/
inductive LoadCommand where
  | segment (sc : SegmentCommand)
  | dyldInfo (rebase bind weakBind lazyBind exports : InfoRange)
  | loadDylib (path : CString)
  | loadWeakDylib (path : CString)
  | other
  deriving DecidableEq

/-- What is at a path. -/
inductive File where
  | missing
  /-- Fewer bytes than a header, or another magic. -/
  | notMachO
  /-- Fewer bytes than the header says. -/
  | shortCommands
  /-- An image with these load commands. The segment at offset 0 of the file maps the header and the
  commands, and no other segment is mapped over them. -/
  | machO (cmds : List LoadCommand)

/-- The kernel: what is at a path, whether `mmap` maps so many bytes at an address, and whether
the file at a path has so many bytes at an offset. -/
structure Kernel where
  file : CString → File
  mmap : ℕ → ℕ → Bool
  hasBytes : CString → ℕ → ℕ → Bool

/-! ## The table -/

/-- An image, with the file it is from, if it is not the main executable, and the load commands at
its header. -/
structure Entry where
  image : Image
  file : Option CString
  cmds : List LoadCommand

/-- Where a dylib has been put: the start of its slots, their size, and what has been mapped. -/
structure Placement where
  cmds : List LoadCommand
  loadAddr : ℕ
  size : ℕ
  ranges : List (ℕ × ℕ)
  deriving DecidableEq

/-- A call of `image_load_dependency` for an image, with the table as it was. -/
structure Call where
  parent : ℕ
  path : CString
  entries : List Entry

/-- `g_images` and `g_next_dylib_base`, and what is remembered. -/
structure Table where
  entries : List Entry
  nextDylibBase : ℕ
  placements : List Placement
  calls : List Call

/-- The table at the start. -/
def Table.empty : Table := ⟨[], 0x210000000, [], []⟩

/-- The reasons of `dyld_panic`. -/
inductive Panic where
  | tooManySegments
  | tooManyDependencies
  | tooManyImages
  | cannotOpen (path : CString)
  | notMachO
  | shortCommands
  | noSegments
  | mmapFailed
  | shortContents
  | noHeaderSegment
  deriving DecidableEq

/-- Why a computation has no result. -/
inductive Halt where
  | panic (p : Panic)
  /-- More calls inside one another than it was given. -/
  | endless
  deriving DecidableEq

/-- A computation on the table. -/
abbrev Loader := EStateM Halt Table

/-- An image after `memset` and `strncpy`. -/
def Image.zeroed (path : CString) : Image :=
  ⟨path.bytes.take pathMax, 0, 0, [], .null, .null, .null, .null, .null, []⟩

/-- `find_loaded`. -/
def findLoaded (entries : List Entry) (path : CString) : Option ℕ :=
  entries.findIdx? fun e => e.image.path = path.bytes

/-- A new image at the end of the table. -/
def register (path : CString) (file : Option CString) (cmds : List LoadCommand) : Loader Unit :=
  modify fun t => { t with entries := t.entries ++ [⟨.zeroed path, file, cmds⟩] }

/-- The image with this index. -/
def imageAt (i : ℕ) : Loader Image := do
  let t ← get
  pure ((t.entries[i]?.map Entry.image).getD (.zeroed (.ofBytes [])))

/-- A change of the image with this index. -/
def modifyImage (i : ℕ) (f : Image → Image) : Loader Unit :=
  modify fun t => { t with entries := t.entries.modify i fun e => { e with image := f e.image } }

/-- A call is going to be made. -/
def noteCall (parent : ℕ) (path : CString) : Loader Unit :=
  modify fun t => { t with calls := t.calls ++ [⟨parent, path, t.entries⟩] }

/-! ## Parsing -/

/-- `image_file_offset_ptr`. -/
def imageFileOffsetPtr (im : Image) (fileoff : ℕ) : ℕ :=
  match im.segs.find? fun s => s.fileoff ≤ fileoff ∧ fileoff < sizeAdd s.fileoff s.filesize with
  | some s => imageAddr im (sizeAdd s.vmaddr (fileoff - s.fileoff))
  | none => 0

/-- The pointers of a stream after `translate_dyld_info`. -/
def translateRange (im : Image) (r : InfoRange) (old : Stream) : Stream :=
  if r.size = 0 then old
  else
    let start := imageFileOffsetPtr im r.off.toNat
    ⟨start, sizeAdd start r.size.toNat⟩

/-- `translate_dyld_info`. -/
def translateDyldInfo (rebase bind weakBind lazyBind exports : InfoRange) (im : Image) : Image :=
  { im with
    rebase := translateRange im rebase im.rebase
    bind := translateRange im bind im.bind
    weakBind := translateRange im weakBind im.weakBind
    lazyBind := translateRange im lazyBind im.lazyBind
    exports := translateRange im exports im.exports }

/-- The segment of a command. -/
def SegmentCommand.segment (sc : SegmentCommand) : Segment :=
  ⟨sc.vmaddr.toNat, sc.vmsize.toNat, sc.fileoff.toNat, sc.filesize.toNat⟩

/-- Parsing of `LC_LOAD_DYLIB`, where `load` is `image_load_dependency`. -/
def parseDylib (load : ℕ → CString → Loader ℕ) (i : ℕ) (path : CString) : Loader Unit := do
  let im ← imageAt i
  if imageMaxDeps ≤ im.deps.length then throw (.panic .tooManyDependencies)
  else
    let dep ← load i path
    modifyImage i fun im => { im with deps := im.deps ++ [dep] }

/-- Parsing of one load command. -/
def parseCommand (load : ℕ → CString → Loader ℕ) (i : ℕ) : LoadCommand → Loader Unit
  | .segment sc => do
    let im ← imageAt i
    if imageMaxSegments ≤ im.segs.length then throw (.panic .tooManySegments)
    else modifyImage i fun im => { im with segs := im.segs ++ [sc.segment] }
  | .dyldInfo rebase bind weakBind lazyBind exports =>
    modifyImage i (translateDyldInfo rebase bind weakBind lazyBind exports)
  | .loadDylib path => parseDylib load i path
  | .loadWeakDylib path => parseDylib load i path
  | .other => pure ()

/-- The loop over the load commands. -/
def parseCommands (load : ℕ → CString → Loader ℕ) (i : ℕ) : List LoadCommand → Loader Unit
  | [] => pure ()
  | cmd :: cmds => do
    parseCommand load i cmd
    parseCommands load i cmds

/-- `image_parse_loaded`. -/
def imageParseLoaded (load : ℕ → CString → Loader ℕ) (i mh slide : ℕ) (cmds : List LoadCommand) :
    Loader Unit := do
  modifyImage i fun im => { im with mh := mh, slide := slide }
  parseCommands load i cmds

/-! ## Mapping -/

/-- The first pass over the load commands: the address of the segment with the header, and the
highest end of a segment. -/
def firstPass : List LoadCommand → ℕ → ℕ → ℕ × ℕ
  | [], lo, hi => (lo, hi)
  | .segment sc :: cmds, lo, hi =>
    let s := sc.segment
    let lo := if s.fileoff = 0 ∧ 0 < s.filesize then s.vmaddr else lo
    let fend := sizeAdd s.vmaddr s.vmsize
    firstPass cmds lo (if hi < fend then fend else hi)
  | _ :: cmds, lo, hi => firstPass cmds lo hi

/-- The size of the slots for so many bytes. -/
def slotsSize (span : ℕ) : ℕ :=
  max 1 (sizeAdd span (dylibSlotSize - 1) / dylibSlotSize) * dylibSlotSize

/-- The second pass: the ranges it maps. -/
def mapSegments (k : Kernel) (path : CString) (slide : ℕ) :
    List LoadCommand → Loader (List (ℕ × ℕ))
  | [] => pure []
  | .segment sc :: cmds => do
    let s := sc.segment
    if 0 < s.vmsize then
      let dest := sizeAdd s.vmaddr slide
      if ¬k.mmap dest s.vmsize then throw (.panic .mmapFailed)
      else if 0 < s.filesize ∧ ¬k.hasBytes path s.fileoff s.filesize then
        throw (.panic .shortContents)
      else
        let ranges ← mapSegments k path slide cmds
        pure ((dest, s.vmsize) :: ranges)
    else mapSegments k path slide cmds
  | _ :: cmds => mapSegments k path slide cmds

/-- The part of `image_load_dependency` that finds a place for the image with these load commands
and maps it there: the address of its header, and how far it has been moved. -/
def mapImage (k : Kernel) (path : CString) (cmds : List LoadCommand) : Loader (ℕ × ℕ) := do
  let (lo, hi) := firstPass cmds (2 ^ 64 - 1) 0
  if lo = 2 ^ 64 - 1 ∨ hi ≤ lo then throw (.panic .noSegments)
  else
    let t ← get
    let loadAddr := t.nextDylibBase
    let size := slotsSize (sizeSub hi lo)
    modify fun t => { t with nextDylibBase := sizeAdd t.nextDylibBase size }
    let slide := sizeSub loadAddr lo
    let ranges ← mapSegments k path slide cmds
    modify fun t => { t with placements := t.placements ++ [⟨cmds, loadAddr, size, ranges⟩] }
    pure (sizeAdd lo slide, slide)

/-! ## Loading -/

/-- The load commands of a file; for an image that cannot be read there are none. -/
def File.cmds : File → List LoadCommand
  | .machO cmds => cmds
  | _ => []

/-- The part of `image_load_dependency` that opens the file and reads its load commands. -/
def openImage (k : Kernel) (path : CString) : Loader (List LoadCommand) :=
  match k.file path with
  | .missing => throw (.panic (.cannotOpen path))
  | .notMachO => throw (.panic .notMachO)
  | .shortCommands => throw (.panic .shortCommands)
  | .machO cmds => pure cmds

/-- The body of `image_load_dependency`, where `load` is the function itself. The commands at the
mapped header are those of the file, as `File.machO` says. -/
def loadDependency (k : Kernel) (load : ℕ → CString → Loader ℕ) (parent : ℕ) (path : CString) :
    Loader ℕ := do
  noteCall parent path
  let t ← get
  match findLoaded t.entries path with
  | some i => pure i
  | none =>
    if imageMax ≤ t.entries.length then throw (.panic .tooManyImages)
    else
      register path (some path) (k.file path).cmds
      let cmds ← openImage k path
      let (mh, slide) ← mapImage k path cmds
      imageParseLoaded load t.entries.length mh slide cmds
      pure t.entries.length

/-- `image_load_dependency`, with at most `rounds` calls inside the first; `parent` is the image it
is called for. -/
def imageLoadDependency (k : Kernel) : ℕ → ℕ → CString → Loader ℕ
  | 0, _, _ => throw .endless
  | rounds + 1, parent, path => loadDependency k (imageLoadDependency k rounds) parent path

/-- A segment of one page with the header of an image. -/
def headerSegment (vmaddr : UInt64) : LoadCommand := .segment ⟨vmaddr, 4096, 0, 4096, []⟩

/-! ## Bootstrapping -/

/-- The loop of `find_preferred_base`. -/
def findPreferredBase : List LoadCommand → Option ℕ → Option ℕ
  | [], found => found
  | .segment sc :: cmds, found =>
    findPreferredBase cmds
      (if sc.segment.fileoff = 0 ∧ 0 < sc.segment.filesize then some sc.segment.vmaddr else found)
  | _ :: cmds, found => findPreferredBase cmds found

/-- `S_MOD_INIT_FUNC_POINTERS`. -/
def modInitFuncPointers : UInt32 := 9

/-- `SECTION_TYPE`. -/
def sectionType : UInt32 := 0xff

/-- The initializers that a section names, by the addresses of the pointers to them. -/
def sectionInitializers (im : Image) (s : SectionHeader) : List ℕ :=
  if s.flags &&& sectionType ≠ modInitFuncPointers then []
  else
    (List.range (toUint32 (s.size.toNat / 8))).map fun i =>
      sizeAdd (imageAddr im s.addr.toNat) (8 * i)

/-- `image_run_mod_init_funcs`. -/
def imageRunModInitFuncs (e : Entry) : List ℕ :=
  e.cmds.flatMap fun cmd =>
    match cmd with
    | .segment sc => sc.sections.flatMap (sectionInitializers e.image)
    | _ => []

/-- The loading part of `dyld_bootstrap_main`, for the main executable with this header and these
load commands. -/
def loadMain (k : Kernel) (argv0 : Option CString) (mainMh : ℕ) (cmds : List LoadCommand) :
    Loader Unit := do
  register (argv0.getD (.ofBytes (ascii "(main)"))) none cmds
  match findPreferredBase cmds none with
  | none => throw (.panic .noHeaderSegment)
  | some preferred =>
    imageParseLoaded (imageLoadDependency k imageMax) 0 mainMh (sizeSub mainMh preferred) cmds

/-- `dyld_bootstrap_main`: the images whose initializers it runs, in this order, with their
initializers. -/
def dyldBootstrapMain (k : Kernel) (argv0 : Option CString) (mainMh : ℕ)
    (cmds : List LoadCommand) : Loader (List (ℕ × List ℕ)) := do
  loadMain k argv0 mainMh cmds
  let t ← get
  pure (t.entries.zipIdx.reverse.map fun e => (e.2, imageRunModInitFuncs e.1))

end Asteros.Dyld
