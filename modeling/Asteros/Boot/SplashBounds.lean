import Asteros.Boot.Splash
import Mathlib.Data.List.GetD

set_option autoImplicit false

/-!
# Where the splash image is drawn

The accesses of `load_and_blit_splash` against the bounds of the file buffer and of the framebuffer.
The writes of `blit_splash` are always inside of the framebuffer. Its reads are inside of the buffer
where the size check compares the size that the pixels have; modulo `2 ^ 64` it can be any number.
What is read then is decided by the first and the last pixel that are shown, since the steps between
shown pixels are shorter than the part of the address space that is not in the buffer. The spinner
is kept inside by a check on 32-bit sums; where the first sum that wraps is the one for the bottom
of the box, the box is cut by the end of the 32-bit numbers.

## Main definitions

* `Access.Inside` — an access inside of its array.
* `ImageFits`, `SpinnerFits` — the inputs that are drawn inside.

## Main results

* `forall_blitSplash`, `forall_blitLoadingSpinner` — the two parts.
* `drawsInside_iff` — an accepted file is drawn inside if and only if both fit.
-/

namespace Asteros.Boot

open Asteros.Libc LittleEndian

/-! ## Walks through a cyclic address space -/

section Window

variable {M F : ℕ}

/-- A step from inside of the window that is too short to cross what is outside stays in the same
turn around the address space. -/
lemma div_eq_of_shortStep {a b : ℕ} (hF : F ≤ M) (ha : a % M < F) (hab : a ≤ b)
    (hb : b ≤ a + (M - F)) : b / M = a / M := by
  have hdecomp : M * (a / M) + a % M = a := Nat.div_add_mod a M
  have hsucc : (a / M + 1) * M = M * (a / M) + M := by ring
  apply Nat.div_eq_of_lt_le
  · calc a / M * M ≤ a := Nat.div_mul_le_self a M
      _ ≤ b := hab
  · omega

/-- So does a walk of such steps. -/
lemma div_eq_of_walk (f : ℕ → ℕ) {n : ℕ} (hF : F ≤ M) (hin : ∀ i < n, f i % M < F)
    (hstep : ∀ i, f i ≤ f (i + 1) ∧ f (i + 1) ≤ f i + (M - F)) :
    ∀ i < n, f i / M = f 0 / M := by
  intro i hi
  induction i with
  | zero => rfl
  | succ i ih =>
    rw [← ih (by omega)]
    exact div_eq_of_shortStep hF (hin i (by omega)) (hstep i).1 (hstep i).2

end Window

/-! ## Bounds -/

/-- An access inside of the file buffer, or of the rows and columns of the framebuffer. -/
def Access.Inside (fb : GopFb) (buf : List UInt8) : Access → Prop
  | .read position => position < buf.length
  | .write offset _ =>
    ∃ row < fb.height, ∃ column < 4 * fb.width, offset = row * fb.rowBytes + column

/-- All accesses of a run are inside. -/
def SplashRun.Inside (fb : GopFb) (run : SplashRun) : Prop :=
  ∀ a ∈ run.accesses, a.Inside fb run.buf

/-- The pixel of the image that is shown in a row and a column of the shown part. -/
def shownPixel (fb : GopFb) (sw sh y x : ℕ) : ℕ :=
  ((sh - fb.height) / 2 + y) * sw + ((sw - fb.width) / 2 + x)

/-- **The image fits.** The size of its pixels is not truncated by the size check, or no pixel is
shown, or the shown pixels, from the first to the last, come to lie in the file when they are moved
down by a multiple of `2 ^ 64`. -/
def ImageFits (fb : GopFb) (size sw sh : ℕ) : Prop :=
  4 * (sw * sh) < 2 ^ 64 ∨ min sw fb.width = 0 ∨ min sh fb.height = 0 ∨
    splashHeaderSize + 4 * shownPixel fb sw sh (min sh fb.height - 1) (min sw fb.width - 1) + 2 <
      (splashHeaderSize + 4 * shownPixel fb sw sh 0 0) / 2 ^ 64 * 2 ^ 64 + size

/-- The row below the image. -/
def imageBottom (fb : GopFb) (sh : ℕ) : ℕ := (fb.height - sh) / 2 + min sh fb.height

/-- **The spinner fits.** The screen is too narrow for it, or the box below the image ends before
row `2 ^ 32`, or it begins behind it. -/
def SpinnerFits (fb : GopFb) (sh : ℕ) : Prop :=
  fb.width / 2 < spinnerHalf ∨
    imageBottom fb sh + spinnerMarginTop + 2 * spinnerHalf < 2 ^ 32 ∨
    2 ^ 32 ≤ imageBottom fb sh + spinnerMarginTop

/-! ## The framebuffer -/

section Framebuffer

variable (fb : GopFb)

/-- An offset in a row of the framebuffer is computed without wrapping. -/
lemma offset_lt (row column : ℕ) (hrow : row < 2 ^ 32) (hcolumn : column < fb.rowBytes) :
    row * fb.rowBytes + column < 2 ^ 64 := by
  have hbytes := fb.rowBytes_lt
  calc row * fb.rowBytes + column < row * fb.rowBytes + fb.rowBytes := by omega
    _ = (row + 1) * fb.rowBytes := by ring
    _ ≤ 2 ^ 32 * 2 ^ 32 := Nat.mul_le_mul (by omega) (by omega)
    _ = 2 ^ 64 := by norm_num

/-- A byte behind the start of a pixel, as the code computes its offset. -/
lemma sizeAdd_offset {row column : ℕ} (hrow : row < 2 ^ 32) (hcolumn : column < fb.rowBytes) :
    sizeAdd (sizeMul row fb.rowBytes) column = row * fb.rowBytes + column := by
  have h := offset_lt fb row column hrow hcolumn
  simp only [sizeAdd, sizeMul]
  omega

/-- An offset tells its row and its column. -/
lemma row_eq {row row' column column' : ℕ} (hc : column < fb.rowBytes)
    (hc' : column' < fb.rowBytes)
    (h : row * fb.rowBytes + column = row' * fb.rowBytes + column') : row = row' := by
  have hpos : 0 < fb.rowBytes := by omega
  have hdiv : ∀ r c, c < fb.rowBytes → (r * fb.rowBytes + c) / fb.rowBytes = r := by
    intro r c hlt
    rw [Nat.mul_comm, Nat.mul_add_div hpos, Nat.div_eq_of_lt hlt, Nat.add_zero]
  rw [← hdiv row column hc, h, hdiv row' column' hc']

end Framebuffer

/-! ## The image -/

section Image

variable {fb : GopFb} {buf : List UInt8} {sw sh : ℕ}

/-- The pointer to a pixel of the image that is shown. -/
lemma srow_eq (hsh : sh < 2 ^ 32) {y x : ℕ} (hy : y < min sh fb.height) :
    sizeAdd (sizeAdd splashHeaderSize (sizeMul (sizeAdd
      (sizeMul (toUint32 ((sh - fb.height) / 2 + y)) sw) ((sw - fb.width) / 2)) 4)) (4 * x) =
      (splashHeaderSize + 4 * shownPixel fb sw sh y x) % 2 ^ 64 := by
  rw [toUint32_of_lt (by omega)]
  simp only [sizeAdd, sizeMul, shownPixel]
  omega

/-- The pointer to the pixel of the framebuffer that it is copied to. -/
lemma drow_eq (hrow : 4 * fb.width ≤ fb.rowBytes) {y x : ℕ} (hy : y < min sh fb.height)
    (hx : x < min sw fb.width) :
    sizeAdd (sizeAdd (sizeMul (toUint32 ((fb.height - sh) / 2 + y)) fb.rowBytes)
      (sizeMul ((fb.width - sw) / 2) 4)) (4 * x) =
      ((fb.height - sh) / 2 + y) * fb.rowBytes + 4 * ((fb.width - sw) / 2 + x) := by
  have hheight := fb.height_lt
  have hlt := offset_lt fb ((fb.height - sh) / 2 + y) (4 * ((fb.width - sw) / 2 + x)) (by omega)
    (by omega)
  rw [toUint32_of_lt (by omega)]
  simp only [sizeAdd, sizeMul]
  omega

/-- The accesses of `blit_splash` are those to the shown pixels. -/
lemma mem_blitSplash (hrow : 4 * fb.width ≤ fb.rowBytes) (hsh : sh < 2 ^ 32) {a : Access} :
    a ∈ blitSplash fb buf sw sh ↔ ∃ y < min sh fb.height, ∃ x < min sw fb.width,
      a ∈ blitPixel fb buf ((splashHeaderSize + 4 * shownPixel fb sw sh y x) % 2 ^ 64)
        (((fb.height - sh) / 2 + y) * fb.rowBytes + 4 * ((fb.width - sw) / 2 + x)) := by
  have hdstX : (if fb.width > sw then (fb.width - sw) / 2 else 0) = (fb.width - sw) / 2 := by
    split <;> omega
  have hdstY : (if fb.height > sh then (fb.height - sh) / 2 else 0) = (fb.height - sh) / 2 := by
    split <;> omega
  have hsrcX : (if sw > fb.width then (sw - fb.width) / 2 else 0) = (sw - fb.width) / 2 := by
    split <;> omega
  have hsrcY : (if sh > fb.height then (sh - fb.height) / 2 else 0) = (sh - fb.height) / 2 := by
    split <;> omega
  have hcopyW : (if sw < fb.width then sw else fb.width) = min sw fb.width := by
    split <;> omega
  have hcopyH : (if sh < fb.height then sh else fb.height) = min sh fb.height := by
    split <;> omega
  simp only [blitSplash, hdstX, hdstY, hsrcX, hsrcY, hcopyW, hcopyH, List.mem_flatMap,
    List.mem_range]
  constructor
  · rintro ⟨y, hy, x, hx, ha⟩
    rw [srow_eq hsh hy, drow_eq hrow hy hx] at ha
    exact ⟨y, hy, x, hx, ha⟩
  · rintro ⟨y, hy, x, hx, ha⟩
    refine ⟨y, hy, x, hx, ?_⟩
    rw [srow_eq hsh hy, drow_eq hrow hy hx]
    exact ha

/-- The accesses to one pixel are inside if those to the three bytes that are read are, for a pixel
of the framebuffer. -/
lemma forall_blitPixel (hrow : 4 * fb.width ≤ fb.rowBytes) (p row column : ℕ)
    (hr : row < fb.height) (hc : column < fb.width) :
    (∀ a ∈ blitPixel fb buf (p % 2 ^ 64) (row * fb.rowBytes + 4 * column), a.Inside fb buf) ↔
      ∀ k < 3, (p + k) % 2 ^ 64 < buf.length := by
  have hheight := fb.height_lt
  have hread : ∀ k, sizeAdd (p % 2 ^ 64) k = (p + k) % 2 ^ 64 := by
    intro k
    simp only [sizeAdd]
    omega
  have hwrite : ∀ k < 4, ∃ row' < fb.height, ∃ column' < 4 * fb.width,
      sizeAdd (row * fb.rowBytes + 4 * column) k = row' * fb.rowBytes + column' := by
    intro k hk
    have hlt := offset_lt fb row (4 * column + k) (by omega) (by omega)
    refine ⟨row, hr, 4 * column + k, by omega, ?_⟩
    rw [sizeAdd_of_lt (by omega)]
    omega
  have hfirst : ∃ row' < fb.height, ∃ column' < 4 * fb.width,
      row * fb.rowBytes + 4 * column = row' * fb.rowBytes + column' :=
    ⟨row, hr, 4 * column, by omega, rfl⟩
  simp only [blitPixel, List.forall_mem_cons, Access.Inside, hfirst, hwrite, Nat.one_lt_ofNat,
    Nat.reduceLT, hread, List.not_mem_nil, and_true, IsEmpty.forall_iff, implies_true]
  constructor
  · rintro ⟨h0, h1, h2⟩ k hk
    obtain rfl | rfl | rfl : k = 0 ∨ k = 1 ∨ k = 2 := by omega
    · exact h0
    · exact h1
    · exact h2
  · intro h
    exact ⟨h 0 (by omega), h 1 (by omega), h 2 (by omega)⟩

/-- **`blit_splash`** writes inside; it reads inside if the shown pixels are in the buffer. -/
lemma forall_blitSplash (hrow : 4 * fb.width ≤ fb.rowBytes) (hsh : sh < 2 ^ 32) :
    (∀ a ∈ blitSplash fb buf sw sh, a.Inside fb buf) ↔
      ∀ y < min sh fb.height, ∀ x < min sw fb.width, ∀ k < 3,
        (splashHeaderSize + 4 * shownPixel fb sw sh y x + k) % 2 ^ 64 < buf.length := by
  constructor
  · intro h y hy x hx
    apply (forall_blitPixel hrow _ ((fb.height - sh) / 2 + y) ((fb.width - sw) / 2 + x) (by omega)
      (by omega)).mp
    intro a ha
    exact h a ((mem_blitSplash hrow hsh).mpr ⟨y, hy, x, hx, ha⟩)
  · intro h a ha
    obtain ⟨y, hy, x, hx, ha⟩ := (mem_blitSplash hrow hsh).mp ha
    exact (forall_blitPixel hrow _ _ _ (by omega) (by omega)).mpr (h y hy x hx) a ha

/-- A later shown pixel is a later pixel of the image. -/
lemma shownPixel_mono (fb : GopFb) (sw sh : ℕ) {y y' x x' : ℕ} (hy : y ≤ y') (hx : x ≤ x') :
    shownPixel fb sw sh y x ≤ shownPixel fb sw sh y' x' := by
  have hrows : ((sh - fb.height) / 2 + y) * sw ≤ ((sh - fb.height) / 2 + y') * sw :=
    Nat.mul_le_mul_right sw (by omega)
  unfold shownPixel
  omega

/-- A shown pixel is a pixel of the image. -/
lemma shownPixel_lt {y x : ℕ} (hy : y < min sh fb.height) (hx : x < min sw fb.width) :
    shownPixel fb sw sh y x < sw * sh := by
  unfold shownPixel
  calc ((sh - fb.height) / 2 + y) * sw + ((sw - fb.width) / 2 + x)
      < ((sh - fb.height) / 2 + y) * sw + sw := by omega
    _ = ((sh - fb.height) / 2 + y + 1) * sw := by ring
    _ ≤ sh * sw := Nat.mul_le_mul_right sw (by omega)
    _ = sw * sh := Nat.mul_comm sh sw

/-- **The shown pixels are in the buffer if and only if the image fits.**

**Proof sketch.** Walking down the first column of the shown part and then along the last row, each
step is at most `4 * sw` bytes, which is less than what the buffer leaves of the address space, so
that the last pixel is in the same turn around it as the first one. -/
lemma shown_iff {size : ℕ} (hsize : size ≤ 2 ^ 52) (hsw : sw < 2 ^ 32)
    (hcheck : splashHeaderSize + sizeMul (sizeMul sw sh) 4 ≤ size) :
    (∀ y < min sh fb.height, ∀ x < min sw fb.width, ∀ k < 3,
      (splashHeaderSize + 4 * shownPixel fb sw sh y x + k) % 2 ^ 64 < size) ↔
      ImageFits fb size sw sh := by
  simp only [splashHeaderSize] at hcheck ⊢
  constructor
  · intro h
    simp only [ImageFits, splashHeaderSize]
    by_cases hw : min sw fb.width = 0
    · exact Or.inr (Or.inl hw)
    by_cases hh : min sh fb.height = 0
    · exact Or.inr (Or.inr (Or.inl hh))
    refine Or.inr (Or.inr (Or.inr ?_))
    have hdown := div_eq_of_walk (M := 2 ^ 64) (F := size) (n := min sh fb.height)
      (fun y => 16 + 4 * shownPixel fb sw sh y 0) (by omega)
      (fun y hy => by simpa using h y hy 0 (by omega) 0 (by omega))
      (by
        intro y
        have hnext : shownPixel fb sw sh (y + 1) 0 = shownPixel fb sw sh y 0 + sw := by
          unfold shownPixel
          ring
        omega)
      (min sh fb.height - 1) (by omega)
    have hright := div_eq_of_walk (M := 2 ^ 64) (F := size) (n := min sw fb.width)
      (fun x => 16 + 4 * shownPixel fb sw sh (min sh fb.height - 1) x) (by omega)
      (fun x hx => by simpa using h (min sh fb.height - 1) (by omega) x hx 0 (by omega))
      (by
        intro x
        have hnext : shownPixel fb sw sh (min sh fb.height - 1) (x + 1) =
            shownPixel fb sw sh (min sh fb.height - 1) x + 1 := by
          unfold shownPixel
          ring
        omega)
      (min sw fb.width - 1) (by omega)
    have hlast := h (min sh fb.height - 1) (by omega) (min sw fb.width - 1) (by omega) 2 (by omega)
    omega
  · rintro hfits y hy x hx k hk
    have hlt := shownPixel_lt hy hx
    have hfirst := shownPixel_mono fb sw sh (Nat.zero_le y) (Nat.zero_le x)
    have hlast := shownPixel_mono fb sw sh
      (show y ≤ min sh fb.height - 1 by omega) (show x ≤ min sw fb.width - 1 by omega)
    simp only [ImageFits, splashHeaderSize] at hfits
    rcases hfits with hfits | hfits | hfits | hfits
    · simp only [sizeMul] at hcheck
      omega
    · omega
    · omega
    · omega

end Image

/-! ## The spinner -/

section Spinner

variable {fb : GopFb}

/-- The rows of the box around a centre, from the top. -/
def boxRow (cy j : ℕ) : ℕ := (cy + 2 ^ 32 - spinnerHalf + j) % 2 ^ 32

/-- A write to a byte of the box around a centre. -/
def Boxed (fb : GopFb) (cx cy : ℕ) (a : Access) : Prop :=
  ∃ j < 2 * spinnerHalf, ∃ c < 8 * spinnerHalf, ∃ v,
    a = .write (sizeAdd (sizeMul (boxRow cy j) fb.rowBytes) (4 * (cx - spinnerHalf) + c)) v

/-- The bytes that are erased are the box. -/
lemma mem_eraseBox {cx cy : ℕ} (hcx : spinnerHalf ≤ cx) (hlt : cx < 2 ^ 32) {a : Access} :
    a ∈ eraseBox fb cx cy ↔ ∃ j < 2 * spinnerHalf, ∃ c < 8 * spinnerHalf,
      a = .write (sizeAdd (sizeMul (boxRow cy j) fb.rowBytes) (4 * (cx - spinnerHalf) + c))
        (some 0) := by
  have hoffset : ∀ j c, sizeAdd (sizeAdd (sizeMul (toUint32 (uint32Sub cy spinnerHalf + j))
      fb.rowBytes) (sizeMul (uint32Sub cx spinnerHalf) 4)) c =
      sizeAdd (sizeMul (boxRow cy j) fb.rowBytes) (4 * (cx - spinnerHalf) + c) := by
    intro j c
    have hx : uint32Sub cx spinnerHalf = cx - spinnerHalf := by
      unfold uint32Sub
      omega
    have hy : toUint32 (uint32Sub cy spinnerHalf + j) = boxRow cy j := by
      simp only [toUint32, uint32Sub, boxRow]
      omega
    rw [hx, hy]
    simp only [sizeAdd, sizeMul]
    omega
  simp only [eraseBox, hoffset, List.mem_flatMap, List.mem_map, List.mem_range]
  constructor
  · rintro ⟨j, hj, c, hc, rfl⟩
    exact ⟨j, by omega, c, by omega, rfl⟩
  · rintro ⟨j, hj, c, hc, rfl⟩
    exact ⟨j, by omega, c, by omega, rfl⟩

/-- A pixel of the box is a write to the box. -/
lemma boxed_putGrayPixel {cx cy : ℕ} (hcx : spinnerHalf ≤ cx) (hlt : cx < 2 ^ 31) {dx dy : ℤ}
    (hdx : |dx| < spinnerHalf) (hdy : |dy| < spinnerHalf) {v : UInt8} {a : Access}
    (ha : a ∈ putGrayPixel fb (int32ToUint32 (cx + dx)) (int32ToUint32 (cy + dy)) v) :
    Boxed fb cx cy a := by
  rw [abs_lt] at hdx hdy
  simp only [spinnerHalf, spinnerRingRadius, spinnerDotRadius] at hcx hdx hdy
  have hx : int32ToUint32 (cx + dx) = cx - spinnerHalf + (dx + 23).toNat := by
    simp only [int32ToUint32, spinnerHalf, spinnerRingRadius, spinnerDotRadius]
    omega
  have hy : int32ToUint32 (cy + dy) = boxRow cy (dy + 23).toNat := by
    simp only [int32ToUint32, boxRow, spinnerHalf, spinnerRingRadius, spinnerDotRadius]
    omega
  have hbyte : ∀ k w, k < 4 → Boxed fb cx cy (.write (sizeAdd (sizeAdd
      (sizeMul (boxRow cy (dy + 23).toNat) fb.rowBytes)
      (sizeMul (cx - spinnerHalf + (dx + 23).toNat) 4)) k) w) := by
    intro k w hk
    refine ⟨(dy + 23).toNat, ?_, 4 * (dx + 23).toNat + k, ?_, w, ?_⟩
    · simp only [spinnerHalf, spinnerRingRadius, spinnerDotRadius]
      omega
    · simp only [spinnerHalf, spinnerRingRadius, spinnerDotRadius]
      omega
    · simp only [sizeAdd, sizeMul]
      congr 1
      omega
  rw [hx, hy] at ha
  simp only [putGrayPixel, List.mem_cons, List.not_mem_nil, or_false] at ha
  rcases ha with rfl | rfl | rfl | rfl
  · simpa [sizeAdd] using hbyte 0 (some v) (by omega)
  · exact hbyte 1 (some v) (by omega)
  · exact hbyte 2 (some v) (by omega)
  · exact hbyte 3 (some 0) (by omega)

/-- A dot of the ring, of either table, is at most the radius away from the centre. -/
lemma abs_ringOffset_le {table : List ℤ} (htable : table = spinnerDx256 ∨ table = spinnerDy256)
    (i : ℕ) : |ringOffset (table.getD i 0)| ≤ spinnerRingRadius := by
  have hall : ∀ d ∈ table, |ringOffset d| ≤ spinnerRingRadius := by
    rcases htable with rfl | rfl <;> decide
  rcases Nat.lt_or_ge i table.length with hi | hi
  · rw [List.getD_eq_getElem _ _ hi]
    exact hall _ (List.getElem_mem hi)
  · rw [List.getD_eq_default _ _ hi]
    decide

/-- What a frame writes is in the box. -/
lemma boxed_blitSpinnerFrame {cx cy head : ℕ} (hcx : spinnerHalf ≤ cx) (hlt : cx < 2 ^ 31)
    {a : Access} (ha : a ∈ blitSpinnerFrame fb cx cy head) : Boxed fb cx cy a := by
  rcases List.mem_append.mp ha with ha | ha
  · obtain ⟨j, hj, c, hc, rfl⟩ := (mem_eraseBox hcx (by omega)).mp ha
    exact ⟨j, hj, c, hc, some 0, rfl⟩
  · obtain ⟨i, -, ha⟩ := List.mem_flatMap.mp ha
    obtain ⟨y, hy, ha⟩ := List.mem_flatMap.mp ha
    obtain ⟨x, hx, ha⟩ := List.mem_flatMap.mp ha
    have hdot : ∀ z ∈ dotRange, |z| ≤ spinnerDotRadius := by decide
    have hring : ∀ {table}, (table = spinnerDx256 ∨ table = spinnerDy256) → ∀ z ∈ dotRange,
        |ringOffset (table.getD i 0) + z| < spinnerHalf := by
      intro table htable z hz
      calc |ringOffset (table.getD i 0) + z|
          ≤ |ringOffset (table.getD i 0)| + |z| := abs_add_le _ _
        _ ≤ spinnerRingRadius + spinnerDotRadius :=
            add_le_add (abs_ringOffset_le htable i) (hdot z hz)
        _ < spinnerHalf := by decide
    split at ha
    · rw [add_assoc, add_assoc] at ha
      exact boxed_putGrayPixel hcx hlt (hring (Or.inl rfl) x hx) (hring (Or.inr rfl) y hy) ha
    · simp at ha

/-- A byte of the box is inside exactly if its row is one of the framebuffer. -/
lemma inside_box_iff (hrow : 4 * fb.width ≤ fb.rowBytes) {buf : List UInt8} {row c : ℕ}
    (hlt : row < 2 ^ 32) (hcx : spinnerHalf ≤ fb.width / 2) (hc : c < 8 * spinnerHalf)
    {v : Option UInt8} :
    (Access.write (sizeAdd (sizeMul row fb.rowBytes) (4 * (fb.width / 2 - spinnerHalf) + c))
      v).Inside fb buf ↔ row < fb.height := by
  rw [sizeAdd_offset fb hlt (by omega)]
  constructor
  · rintro ⟨row', hrow', column, hcolumn, heq⟩
    rwa [row_eq fb (by omega) (by omega) heq]
  · intro hheight
    exact ⟨row, hheight, _, by omega, rfl⟩

/-- **`blit_loading_spinner`** draws inside if and only if the spinner fits.

**Proof sketch.** The rows of the box begin `spinnerMarginTop` below the image and are numbers of 32
bits, as is the bottom that the check looks at. If none or all of them have wrapped, the check
bounds them; otherwise the check passes and the box has the row `2 ^ 32 - 1`. -/
lemma forall_blitLoadingSpinner (hrow : 4 * fb.width ≤ fb.rowBytes) {buf : List UInt8} {sh : ℕ} :
    (∀ a ∈ blitLoadingSpinner fb (imageBottom fb sh), a.Inside fb buf) ↔ SpinnerFits fb sh := by
  have hheight := fb.height_lt
  have hwidth := fb.width_lt
  have hbottom : imageBottom fb sh ≤ fb.height := by
    unfold imageBottom
    omega
  generalize hcy : toUint32 (toUint32 (imageBottom fb sh + spinnerMarginTop) + spinnerHalf) = cy
  have hboxRow : ∀ j, boxRow cy j = (imageBottom fb sh + spinnerMarginTop + j) % 2 ^ 32 := by
    intro j
    rw [← hcy]
    simp only [boxRow, toUint32, spinnerHalf, spinnerRingRadius, spinnerDotRadius]
    omega
  have hcheck : toUint32 (cy + spinnerHalf) =
      (imageBottom fb sh + spinnerMarginTop + 2 * spinnerHalf) % 2 ^ 32 := by
    rw [← hcy]
    simp only [toUint32]
    omega
  have hlt : ∀ j, boxRow cy j < 2 ^ 32 := fun j => Nat.mod_lt _ (by norm_num)
  have hhalf : spinnerHalf = 23 := rfl
  have hmargin : spinnerMarginTop = 18 := rfl
  simp only [blitLoadingSpinner, hcy, hcheck]
  by_cases hfit : spinnerHalf > fb.width / 2 ∨
      (imageBottom fb sh + spinnerMarginTop + 2 * spinnerHalf) % 2 ^ 32 > fb.height
  · rw [if_pos hfit]
    simp only [SpinnerFits, List.not_mem_nil, false_implies, implies_true, true_iff]
    omega
  · rw [if_neg hfit]
    rw [not_or, not_lt, not_lt] at hfit
    constructor
    · intro h
      by_contra hnot
      simp only [SpinnerFits, not_or, not_lt, not_le] at hnot
      -- the row 2 ^ 32 - 1 is in the box
      have hj : 2 ^ 32 - 1 - (imageBottom fb sh + spinnerMarginTop) < 2 * spinnerHalf := by omega
      have ha := h (.write (sizeAdd (sizeMul (boxRow cy _) fb.rowBytes)
        (4 * (fb.width / 2 - spinnerHalf) + 0)) (some 0)) (by
          simp only [List.mem_flatMap, List.mem_range]
          refine ⟨0, by decide, List.mem_append_left _ ?_⟩
          rw [mem_eraseBox hfit.1 (by omega)]
          exact ⟨_, hj, 0, by decide, rfl⟩)
      rw [inside_box_iff hrow (hlt _) hfit.1 (by decide), hboxRow] at ha
      omega
    · intro hfits a ha
      simp only [List.mem_flatMap, List.mem_range] at ha
      obtain ⟨frame, -, ha⟩ := ha
      obtain ⟨j, hj, c, hc, v, rfl⟩ := boxed_blitSpinnerFrame hfit.1 (by omega) ha
      rw [inside_box_iff hrow (hlt j) hfit.1 hc, hboxRow]
      simp only [SpinnerFits] at hfits
      omega

end Spinner

/-! ## The file -/

/-- Four bytes are a number of 32 bits. -/
lemma leVal_take_lt (bs : List UInt8) : leVal (bs.take 4) < 2 ^ 32 := by
  calc leVal (bs.take 4) < 256 ^ (bs.take 4).length := leVal_lt _
    _ ≤ 256 ^ 4 := Nat.pow_le_pow_right (by norm_num) (by simp)
    _ = 2 ^ 32 := by norm_num

/-- The width of an image is one. -/
lemma splashWidth_lt (buf : List UInt8) : splashWidth buf < 2 ^ 32 := leVal_take_lt _

/-- So is its height. -/
lemma splashHeight_lt (buf : List UInt8) : splashHeight buf < 2 ^ 32 := leVal_take_lt _

/-- What the checks have made sure of for an accepted file. -/
lemma acceptSplash_spec {file : SplashFile} {buf : List UInt8}
    (h : acceptSplash file = some buf) :
    buf.length ≤ 2 ^ 52 ∧
      splashHeaderSize + sizeMul (sizeMul (splashWidth buf) (splashHeight buf)) 4 ≤ buf.length := by
  unfold acceptSplash at h
  split at h
  · simp at h
  split at h
  · simp at h
  rename_i fileSize hsize
  have hlt := file.fileSize_lt fileSize hsize
  split at h
  · simp at h
  rename_i hheader
  split at h
  · simp at h
  rename_i hpool
  split at h
  · simp at h
  rename_i buf' hread
  split at h
  · simp at h
  rename_i hlength
  split at h
  · simp at h
  dsimp only at h
  split at h
  · simp at h
  rename_i hpixels
  cases h
  have hle := file.allocatePool_le fileSize (by simpa using hpool)
  rw [not_le] at hheader
  rw [sizeSub_of_le hheader.le hlt] at hpixels
  omega

/-- What is drawn of an accepted file. -/
lemma drawSplash_eq (fb : GopFb) (buf : List UInt8) :
    drawSplash fb buf = blitSplash fb buf (splashWidth buf) (splashHeight buf) ++
      blitLoadingSpinner fb (imageBottom fb (splashHeight buf)) := by
  have hheight := fb.height_lt
  have hdstY : (if fb.height > splashHeight buf then (fb.height - splashHeight buf) / 2 else 0) =
      (fb.height - splashHeight buf) / 2 := by
    split <;> omega
  have hcopyH : (if splashHeight buf < fb.height then splashHeight buf else fb.height) =
      min (splashHeight buf) fb.height := by
    split <;> omega
  simp only [drawSplash, hdstY, hcopyH]
  rw [toUint32_of_lt (by omega)]
  rfl

/-- **An accepted file is drawn inside of the buffer and of the framebuffer if and only if the
image and the spinner fit.** -/
theorem drawsInside_iff (file : SplashFile) (fb : GopFb) (hrow : 4 * fb.width ≤ fb.rowBytes)
    {run : SplashRun} (h : loadAndBlitSplash file fb = some run) :
    run.Inside fb ↔ ImageFits fb run.buf.length (splashWidth run.buf) (splashHeight run.buf) ∧
      SpinnerFits fb (splashHeight run.buf) := by
  obtain ⟨buf, hbuf, rfl⟩ := Option.map_eq_some_iff.mp h
  obtain ⟨hlength, hcheck⟩ := acceptSplash_spec hbuf
  simp only [SplashRun.Inside, drawSplash_eq, List.forall_mem_append]
  rw [forall_blitSplash hrow (splashHeight_lt buf), shown_iff hlength (splashWidth_lt buf) hcheck,
    forall_blitLoadingSpinner hrow]

/-- A file with some bytes, of which a firmware gives all. -/
def splashFile (bytes : List UInt8) (hlt : bytes.length < 2 ^ 64) : SplashFile where
  opened := true
  fileSize := some bytes.length
  fileSize_lt := by
    rintro n ⟨⟩
    exact hlt
  allocatePool := fun n => n ≤ 2 ^ 52
  allocatePool_le := fun _ hn => of_decide_eq_true hn
  read := fun n => some (bytes.take n)
  length_read_le := by
    rintro n bs ⟨⟩
    exact List.length_take_le n bytes

/-- A screen of 800 by 600 pixels. -/
def svgaScreen : GopFb where
  width := 800
  height := 600
  rowBytes := 3200
  bgr := true
  width_lt := by norm_num
  height_lt := by norm_num
  rowBytes_lt := by norm_num

/-- An image of two pixels in a row. -/
def twoPixels : List UInt8 :=
  [65, 83, 80, 76, 2, 0, 0, 0, 1, 0, 0, 0, 0, 0, 0, 0, 255, 255, 255, 0, 255, 255, 255, 0]

/-- An image of two pixels is drawn inside of the screen. -/
theorem drawsInside_twoPixels :
    ∃ run, loadAndBlitSplash (splashFile twoPixels (by decide)) svgaScreen = some run ∧
      run.Inside svgaScreen :=
  ⟨⟨twoPixels, drawSplash svgaScreen twoPixels⟩, rfl,
    (drawsInside_iff (splashFile twoPixels (by decide)) svgaScreen (by decide) rfl).mpr
      ⟨Or.inl (by decide), Or.inr (Or.inl (by decide))⟩⟩

/-- A header of an image of `2 ^ 31` by `2 ^ 31` pixels, with one byte behind it. -/
def hugeHeader : List UInt8 := [65, 83, 80, 76, 0, 0, 0, 128, 0, 0, 0, 128, 0, 0, 0, 0, 0]

/-- The size of its pixels is `2 ^ 64`, which the size check takes for 0; the pixel in the middle is
read half of the address space away from the buffer. -/
theorem not_drawsInside :
    ¬ ∀ (file : SplashFile) (fb : GopFb) (run : SplashRun), 4 * fb.width ≤ fb.rowBytes →
      loadAndBlitSplash file fb = some run → run.Inside fb := by
  intro h
  have hall := h (splashFile hugeHeader (by decide)) svgaScreen
    ⟨hugeHeader, drawSplash svgaScreen hugeHeader⟩ (by decide) rfl
  simp only [SplashRun.Inside, drawSplash_eq, List.forall_mem_append] at hall
  have hpixel := (forall_blitSplash (by decide) (splashHeight_lt _)).mp hall.1 0 (by decide) 0
    (by decide) 0 (by decide)
  revert hpixel
  decide

end Asteros.Boot
