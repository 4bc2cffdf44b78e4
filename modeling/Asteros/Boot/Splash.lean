import Asteros.Libc.CTypes
import Asteros.Lib.LittleEndian

set_option autoImplicit false

/-!
# The splash image of the boot loader

What `load_and_blit_splash` accesses in memory once it has accepted `splash.raw`: the bytes of the
pixels that it reads, and the bytes that it writes to the framebuffer for the image and for the
spinner below. A drawing is the list of these accesses in the order of the code. An access to the
file buffer is a position in that buffer, an access to the framebuffer its distance from `fb->base`;
both are pointers in the code, so that they are computed modulo `2 ^ 64`. What a read outside of
the buffer gives is not known, and the bytes that come from it are left open.

The firmware decides whether the file can be opened and read. A pool it allocates lies in physical
memory, the addresses of which have 52 bits at most; nothing else is assumed of it.

## Main definitions

* `GopFb`, `SplashFile` — the framebuffer, and what the firmware gives.
* `blitSplash`, `blitLoadingSpinner` — the image and the spinner.
* `loadAndBlitSplash` — the checks, and the drawing of a file that passes them.
-/

namespace Asteros.Boot

open Asteros.Libc LittleEndian

/-! ## Arithmetic of the code -/

/-- `a * b` on `uint64_t`. -/
def sizeMul (a b : ℕ) : ℕ := a * b % 2 ^ 64

/-- `a - b` on `uint32_t`. -/
def uint32Sub (a b : ℕ) : ℕ := (a + 2 ^ 32 - b) % 2 ^ 32

/-- The conversion of an `int32_t` to `uint32_t`. The sums that are converted may leave the range of
an `int32_t`; wrapped or not, they are the same modulo `2 ^ 32`. -/
def int32ToUint32 (z : ℤ) : ℕ := (z % 2 ^ 32).toNat

/-! ## Memory -/

/-- The members of `gop_fb_t` that are drawn with. -/
structure GopFb where
  /-- `width`, in pixels. -/
  width : ℕ
  /-- `height`. -/
  height : ℕ
  /-- `rowBytes`, the distance between two rows. -/
  rowBytes : ℕ
  /-- `bgr`: whether blue is stored first. -/
  bgr : Bool
  /-- It is a `uint32_t`. -/
  width_lt : width < 2 ^ 32
  /-- So is this. -/
  height_lt : height < 2 ^ 32
  /-- And this. -/
  rowBytes_lt : rowBytes < 2 ^ 32

/-- An access to memory. -/
inductive Access where
  /-- A byte is read at a position of the file buffer. -/
  | read (position : ℕ)
  /-- A byte is written at a distance from the base of the framebuffer. -/
  | write (offset : ℕ) (value : Option UInt8)
  deriving DecidableEq

/-! ## The image -/

/-- `sizeof(splash_header_t)`. -/
def splashHeaderSize : ℕ := 16

/-- `hdr->width`. -/
def splashWidth (buf : List UInt8) : ℕ := leVal ((buf.drop 4).take 4)

/-- `hdr->height`. -/
def splashHeight (buf : List UInt8) : ℕ := leVal ((buf.drop 8).take 4)

/-- The body of the inner loop of `blit_splash`. -/
def blitPixel (fb : GopFb) (buf : List UInt8) (srow drow : ℕ) : List Access :=
  let r := buf[srow]?
  let g := buf[sizeAdd srow 1]?
  let b := buf[sizeAdd srow 2]?
  [.read srow, .read (sizeAdd srow 1), .read (sizeAdd srow 2),
    .write drow (if fb.bgr then b else r), .write (sizeAdd drow 1) g,
    .write (sizeAdd drow 2) (if fb.bgr then r else b), .write (sizeAdd drow 3) (some 0)]

/-- `blit_splash`, for the pixels behind the header in the buffer. -/
def blitSplash (fb : GopFb) (buf : List UInt8) (sw sh : ℕ) : List Access :=
  let dstX0 := if fb.width > sw then (fb.width - sw) / 2 else 0
  let dstY0 := if fb.height > sh then (fb.height - sh) / 2 else 0
  let srcX0 := if sw > fb.width then (sw - fb.width) / 2 else 0
  let srcY0 := if sh > fb.height then (sh - fb.height) / 2 else 0
  let copyW := if sw < fb.width then sw else fb.width
  let copyH := if sh < fb.height then sh else fb.height
  (List.range copyH).flatMap fun y =>
    let srow := sizeAdd splashHeaderSize
      (sizeMul (sizeAdd (sizeMul (toUint32 (srcY0 + y)) sw) srcX0) 4)
    let drow := sizeAdd (sizeMul (toUint32 (dstY0 + y)) fb.rowBytes) (sizeMul dstX0 4)
    (List.range copyW).flatMap fun x =>
      blitPixel fb buf (sizeAdd srow (4 * x)) (sizeAdd drow (4 * x))

/-! ## The spinner -/

/-- `SPINNER_DOT_COUNT`. -/
def spinnerDotCount : ℕ := 12

/-- `SPINNER_DOT_RADIUS`. -/
def spinnerDotRadius : ℕ := 3

/-- `SPINNER_RING_RADIUS`. -/
def spinnerRingRadius : ℕ := 18

/-- `SPINNER_FRAME_COUNT`. -/
def spinnerFrameCount : ℕ := 24

/-- `half`, of the box around the spinner. -/
def spinnerHalf : ℕ := spinnerRingRadius + spinnerDotRadius + 2

/-- `margin_top`. -/
def spinnerMarginTop : ℕ := 18

/-- `spinner_dx256`. -/
def spinnerDx256 : List ℤ := [256, 222, 128, 0, -128, -222, -256, -222, -128, 0, 128, 222]

/-- `spinner_dy256`. -/
def spinnerDy256 : List ℤ := [0, 128, 222, 256, 222, 128, 0, -128, -222, -256, -222, -128]

/-- `(SPINNER_RING_RADIUS * d) / 256`, rounded toward zero. -/
def ringOffset (d : ℤ) : ℤ := (spinnerRingRadius * d).tdiv 256

/-- `put_gray_pixel`. -/
def putGrayPixel (fb : GopFb) (x y : ℕ) (v : UInt8) : List Access :=
  let drow := sizeAdd (sizeMul y fb.rowBytes) (sizeMul x 4)
  [.write drow (some v), .write (sizeAdd drow 1) (some v), .write (sizeAdd drow 2) (some v),
    .write (sizeAdd drow 3) (some 0)]

/-- The numbers from `-SPINNER_DOT_RADIUS` to `SPINNER_DOT_RADIUS`. -/
def dotRange : List ℤ :=
  (List.range (2 * spinnerDotRadius + 1)).map fun i : ℕ => (i - spinnerDotRadius : ℤ)

/-- A dot of the spinner, around a centre. -/
def blitDot (fb : GopFb) (dcx dcy : ℤ) (brightness : UInt8) : List Access :=
  dotRange.flatMap fun y : ℤ => dotRange.flatMap fun x : ℤ =>
    if x * x + y * y ≤ spinnerDotRadius * spinnerDotRadius then
      putGrayPixel fb (int32ToUint32 (dcx + x)) (int32ToUint32 (dcy + y)) brightness
    else []

/-- The rows that `blit_spinner_frame` erases. -/
def eraseBox (fb : GopFb) (cx cy : ℕ) : List Access :=
  let boxX0 := uint32Sub cx spinnerHalf
  let boxY0 := uint32Sub cy spinnerHalf
  (List.range (spinnerHalf * 2)).flatMap fun y =>
    (List.range (spinnerHalf * 2 * 4)).map fun i =>
      .write (sizeAdd (sizeAdd (sizeMul (toUint32 (boxY0 + y)) fb.rowBytes) (sizeMul boxX0 4)) i)
        (some 0)

/-- `blit_spinner_frame`. -/
def blitSpinnerFrame (fb : GopFb) (cx cy headIndex : ℕ) : List Access :=
  eraseBox fb cx cy ++
    (List.range spinnerDotCount).flatMap fun i =>
      let dotIndex := (i + spinnerDotCount - headIndex) % spinnerDotCount
      let brightness := UInt8.ofNat (0xFF - 0xFF * dotIndex / (spinnerDotCount - 1))
      blitDot fb (cx + ringOffset (spinnerDx256.getD i 0)) (cy + ringOffset (spinnerDy256.getD i 0))
        brightness

/-- `blit_loading_spinner`. -/
def blitLoadingSpinner (fb : GopFb) (imageBottomY : ℕ) : List Access :=
  let cx := fb.width / 2
  let cy := toUint32 (toUint32 (imageBottomY + spinnerMarginTop) + spinnerHalf)
  if spinnerHalf > fb.width / 2 ∨ toUint32 (cy + spinnerHalf) > fb.height then []
  else
    (List.range spinnerFrameCount).flatMap fun frame =>
      blitSpinnerFrame fb cx cy (frame % spinnerDotCount)

/-! ## The file -/

/-- What the firmware gives for `splash.raw`. -/
structure SplashFile where
  /-- Whether the file can be opened. -/
  opened : Bool
  /-- The `FileSize` of its `EFI_FILE_INFO`, if that can be had. -/
  fileSize : Option ℕ
  /-- It is a `UINT64`. -/
  fileSize_lt : ∀ n ∈ fileSize, n < 2 ^ 64
  /-- Whether a pool of so many bytes can be allocated. -/
  allocatePool : ℕ → Bool
  /-- A pool lies in physical memory. -/
  allocatePool_le : ∀ n, allocatePool n = true → n ≤ 2 ^ 52
  /-- The bytes that `Read` puts in a buffer of a size, unless it fails. -/
  read : ℕ → Option (List UInt8)
  /-- They fit in the buffer. -/
  length_read_le : ∀ n bs, read n = some bs → bs.length ≤ n

/-- The checks of `load_and_blit_splash`: the buffer with the file, if it is accepted. -/
def acceptSplash (file : SplashFile) : Option (List UInt8) :=
  if file.opened = false then none
  else
    match file.fileSize with
    | none => none
    | some fileSize =>
      if fileSize ≤ splashHeaderSize then none
      else if file.allocatePool fileSize = false then none
      else
        match file.read fileSize with
        | none => none
        | some buf =>
          if buf.length ≠ fileSize then none
          else if buf.take 4 ≠ [65, 83, 80, 76] then none
          else
            let pixelBytes := sizeMul (sizeMul (splashWidth buf) (splashHeight buf)) 4
            if sizeSub fileSize splashHeaderSize < pixelBytes then none else some buf

/-- What `load_and_blit_splash` draws of an accepted file. -/
def drawSplash (fb : GopFb) (buf : List UInt8) : List Access :=
  let height := splashHeight buf
  let dstY0 := if fb.height > height then (fb.height - height) / 2 else 0
  let copyH := if height < fb.height then height else fb.height
  blitSplash fb buf (splashWidth buf) height ++ blitLoadingSpinner fb (toUint32 (dstY0 + copyH))

/-- A call of `load_and_blit_splash` that returns 1. -/
structure SplashRun where
  /-- The buffer with the file. -/
  buf : List UInt8
  /-- The accesses to the pixels in it and to the framebuffer. -/
  accesses : List Access

/-- `load_and_blit_splash`. -/
def loadAndBlitSplash (file : SplashFile) (fb : GopFb) : Option SplashRun :=
  (acceptSplash file).map fun buf => ⟨buf, drawSplash fb buf⟩

end Asteros.Boot
