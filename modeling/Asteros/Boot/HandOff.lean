import Asteros.Boot.Loader
import Mathlib.Tactic.SplitIfs

set_option autoImplicit false

/-!
# The layout of the hand-off

`efi_main` lays out the kernel, `boot_args`, the RAM disk, the device tree and the memory map. What
it says of the result is that each of them is written in its own pages only, that they do not
overlap, that they all lie in the kernel image that `boot_args` reports, and that they lie below
4 GiB, because they are handed over as `uint32_t` addresses.

None of this is checked. The pages of a segment are reserved for its size in memory, but as many
bytes are read as it has in the file, and nothing keeps the allocations behind the kernel below
4 GiB. The layout is good exactly when the load commands and the size of the RAM disk fit; the
conditions are those that a check would have to make.

## Main definitions

* `placed`, `Lays` — the segments that are placed, and the variables of the loader after them.
* `HandsOff` — what lies behind them at the end.
* `WellLaid` — the layout is good.
* `Fits` — the kernel and the RAM disk fit.

## Main results

* `loadCommands_lays`, `efiMain_eq_some` — what a run has placed.
* `wellLaid_iff` — the layout is good exactly if they fit.
-/

namespace Asteros.Boot

open Asteros.Libc AddressRange

/-! ## The segments -/

namespace Segment

/-- The pages that are allocated for a segment. -/
def room (seg : Segment) : Range := ⟨seg.segPhys, seg.segPages * pageSize⟩

/-- What is written for a segment, the last first: the zeros, and the bytes of the file. -/
def fills (seg : Segment) : List Range :=
  (if seg.filesize < seg.vmsize then
    [⟨sizeAdd seg.segPhys seg.filesize, sizeSub seg.vmsize seg.filesize⟩] else []) ++
  (if 0 < seg.filesize then [⟨seg.segPhys, seg.filesize⟩] else [])

end Segment

/-- A segment of the kernel is loaded: it is not empty. -/
def Loaded (cmds : List LoadCommand) (seg : Segment) : Prop :=
  LoadCommand.segment seg ∈ cmds ∧ seg.vmsize ≠ 0

/-- The segments that are placed, with the numbers of their load commands. -/
def placed : ℕ → List LoadCommand → List (ℕ × Segment)
  | _, [] => []
  | i, .segment seg :: cmds =>
    if seg.vmsize = 0 then placed (i + 1) cmds else (i, seg) :: placed (i + 1) cmds
  | i, .unixThread _ :: cmds => placed (i + 1) cmds
  | i, .other :: cmds => placed (i + 1) cmds

/-- The variables of the loader after some segments were placed, the last of which is named
first. -/
structure Lays (l : Loader) (segs : List (ℕ × Segment)) : Prop where
  /-- There is an object for each of the segments. -/
  objects : l.objects = segs.map fun s => (Object.segment s.1, s.2.room)
  /-- Each of them was written. -/
  writes : l.writes = segs.flatMap fun s => s.2.fills.map (Object.segment s.1, ·)
  /-- The objects lie apart. -/
  apart : l.objects.Pairwise fun a b => a.2.Apart b.2
  /-- They begin at pages. -/
  aligned : ∀ s ∈ segs, pageSize ∣ s.2.segPhys
  /-- What was converted are their numbers of pages. -/
  converted : ∀ n ∈ l.converted, n = 0 ∨ ∃ s ∈ segs, n = pagesFor s.2.vmsize
  /-- `kaddr_low32` is a bound of them. -/
  kaddrLow32_le : ∀ s ∈ segs, l.kaddrLow32 ≤ s.2.segPhys
  /-- It is reached by one of them. -/
  kaddrLow32 : l.kaddrLow32 = 0xFFFFFFFF ∨ ∃ s ∈ segs, l.kaddrLow32 = s.2.segPhys
  /-- So is `kend_low32`, unless the addition carries out. -/
  le_kendLow32 : ∀ s ∈ segs, sizeAdd s.2.segPhys s.2.vmsize ≤ l.kendLow32
  /-- And it is reached by one of them. -/
  kendLow32 : l.kendLow32 = 0 ∨ ∃ s ∈ segs, l.kendLow32 = sizeAdd s.2.segPhys s.2.vmsize
  /-- `have_seg` says whether there are any. -/
  haveSeg : l.haveSeg = true → segs ≠ []

/-- An allocation that succeeds adds the pages to the objects, apart from those before. -/
lemma allocatePages_eq_some {fw : Firmware} {l l' : Loader} {o : Object} {n addr : ℕ}
    (h : allocatePages fw l o n addr = some l') :
    l' = l.place o addr n ∧ pageSize ∣ addr ∧
      ∀ a ∈ l.objects, Range.Apart ⟨addr, n * pageSize⟩ a.2 := by
  unfold allocatePages at h
  split_ifs at h with hgiven
  obtain ⟨haligned, -, hapart⟩ := fw.free _ _ _ hgiven
  refine ⟨(Option.some.inj h).symm, haligned, fun a ha => Range.Apart.symm (hapart _ ?_)⟩
  exact List.mem_append_right _ (List.mem_map_of_mem ha)

/-- What is written for a segment. -/
lemma fillSegment_eq_some {fw : Firmware} {l l' : Loader} {i : ℕ} {seg : Segment}
    (h : fillSegment fw l i seg = some l') :
    l' = l.write (.segment i) seg.fills := by
  unfold fillSegment at h
  simp only [Option.map_eq_some_iff] at h
  obtain ⟨m, hread, rfl⟩ := h
  unfold Segment.fills
  split_ifs at hread ⊢ <;> cases hread <;> rfl

/-- The variables after a segment was placed: its ends are taken into account. -/
@[simps] def Loader.extend (l : Loader) (seg : Segment) : Loader :=
  { l with
    kaddrLow32 := min l.kaddrLow32 seg.segPhys
    kendLow32 := max l.kendLow32 (sizeAdd seg.segPhys seg.vmsize)
    haveSeg := true }

/-- The two comparisons of the code are a minimum and a maximum. -/
lemma noteSegment_eq (l : Loader) (seg : Segment) : noteSegment l seg = l.extend seg := by
  unfold noteSegment Loader.extend
  rcases Nat.lt_or_ge seg.segPhys l.kaddrLow32 with hlow | hlow <;>
    rcases Nat.lt_or_ge l.kendLow32 (sizeAdd seg.segPhys seg.vmsize) with hhigh | hhigh <;>
      simp [hlow, hhigh, Nat.le_of_lt, Nat.not_lt_of_le]

/-- A segment that is not empty is allocated, filled and taken into account. -/
lemma loadSegment_eq_some {fw : Firmware} {l l' : Loader} {i : ℕ} {seg : Segment}
    (hsize : seg.vmsize ≠ 0) (h : loadSegment fw l i seg = some l') :
    l' = (((l.convert [pagesFor seg.vmsize]).place (.segment i) seg.segPhys seg.segPages).write
        (.segment i) seg.fills).extend seg ∧
      pageSize ∣ seg.segPhys ∧ ∀ a ∈ l.objects, seg.room.Apart a.2 := by
  unfold loadSegment at h
  simp only [hsize, if_false, Option.bind_eq_bind, Option.bind_eq_some_iff,
    Option.some.injEq] at h
  obtain ⟨m, halloc, n, hfill, rfl⟩ := h
  obtain ⟨rfl, haligned, hapart⟩ := allocatePages_eq_some halloc
  obtain rfl := fillSegment_eq_some hfill
  exact ⟨noteSegment_eq _ _, haligned, hapart⟩

/-- **One segment.** -/
lemma loadSegment_lays {fw : Firmware} {l l' : Loader} {segs : List (ℕ × Segment)} {i : ℕ}
    {seg : Segment} (hl : Lays l segs) (h : loadSegment fw l i seg = some l') :
    Lays l' (if seg.vmsize = 0 then segs else (i, seg) :: segs) := by
  by_cases hzero : seg.vmsize = 0
  · unfold loadSegment at h
    simp only [hzero, if_true, Option.some.injEq] at h ⊢
    subst h
    exact { hl with
      converted := by
        intro n hn
        obtain rfl | hn := List.mem_cons.mp hn
        · exact .inl rfl
        · exact hl.converted n hn }
  · obtain ⟨rfl, haligned, hapart⟩ := loadSegment_eq_some hzero h
    rw [if_neg hzero]
    exact
      { objects := by simp [hl.objects, Segment.room]
        writes := by simp [hl.writes]
        apart := List.pairwise_cons.mpr ⟨hapart, hl.apart⟩
        aligned := List.forall_mem_cons.mpr ⟨haligned, hl.aligned⟩
        converted := by
          intro n hn
          obtain rfl | hn := List.mem_cons.mp hn
          · exact .inr ⟨_, List.mem_cons_self, rfl⟩
          · refine (hl.converted n hn).imp_right fun ⟨s, hs, he⟩ => ?_
            exact ⟨s, List.mem_cons_of_mem _ hs, he⟩
        kaddrLow32_le := List.forall_mem_cons.mpr ⟨Nat.min_le_right _ _, fun s hs =>
          (Nat.min_le_left _ _).trans (hl.kaddrLow32_le s hs)⟩
        kaddrLow32 := by
          rcases Nat.le_total l.kaddrLow32 seg.segPhys with hle | hle
          · simp only [Loader.extend_kaddrLow32, Loader.write_kaddrLow32, Loader.place_kaddrLow32,
              Loader.convert_kaddrLow32, Nat.min_eq_left hle]
            exact hl.kaddrLow32.imp_right fun ⟨s, hs, he⟩ => ⟨s, List.mem_cons_of_mem _ hs, he⟩
          · exact .inr ⟨_, List.mem_cons_self, Nat.min_eq_right hle⟩
        le_kendLow32 := List.forall_mem_cons.mpr ⟨Nat.le_max_right _ _, fun s hs =>
          (hl.le_kendLow32 s hs).trans (Nat.le_max_left _ _)⟩
        kendLow32 := by
          rcases Nat.le_total l.kendLow32 (sizeAdd seg.segPhys seg.vmsize) with hle | hle
          · exact .inr ⟨_, List.mem_cons_self, Nat.max_eq_right hle⟩
          · simp only [Loader.extend_kendLow32, Loader.write_kendLow32, Loader.place_kendLow32,
              Loader.convert_kendLow32, Nat.max_eq_left hle]
            exact hl.kendLow32.imp_right fun ⟨s, hs, he⟩ => ⟨s, List.mem_cons_of_mem _ hs, he⟩
        haveSeg := fun _ => List.cons_ne_nil _ _ }

/-- **The segments.** After the loop over the load commands, those of them that are not empty were
placed.

**Proof sketch.** By induction on the commands, with `loadSegment_lays` for each. -/
lemma loadCommands_lays {fw : Firmware} {cmds : List LoadCommand} {i : ℕ} {l l' : Loader}
    {segs : List (ℕ × Segment)} (hl : Lays l segs) (h : loadCommands fw l i cmds = some l') :
    Lays l' ((placed i cmds).reverse ++ segs) := by
  induction cmds generalizing i l segs with
  | nil =>
    obtain rfl := Option.some.inj h
    exact hl
  | cons cmd cmds ih =>
    cases cmd with
    | segment seg =>
      unfold loadCommands at h
      split at h
      · cases h
      · next m hm =>
        have hrest := ih (loadSegment_lays hl hm) h
        unfold placed
        split_ifs at hrest ⊢ with hzero
        · exact hrest
        · simpa using hrest
    | unixThread rip =>
      cases rip with
      | none =>
        unfold loadCommands at h
        exact ih hl h
      | some rip =>
        unfold loadCommands at h
        have hentry : Lays { l with entryVirt := some rip } segs := { hl with }
        exact ih hentry h
    | other =>
      unfold loadCommands at h
      exact ih hl h

/-- At the start nothing is placed. -/
lemma lays_nil : Lays {} [] where
  objects := rfl
  writes := rfl
  apart := List.Pairwise.nil
  aligned := by simp
  converted := by simp
  kaddrLow32_le := by simp
  kaddrLow32 := .inl rfl
  le_kendLow32 := by simp
  kendLow32 := .inl rfl
  haveSeg := by simp

/-- The segments that are placed are those that are not empty. -/
lemma exists_mem_placed_iff {cmds : List LoadCommand} {i : ℕ} {seg : Segment} :
    (∃ j, (j, seg) ∈ placed i cmds) ↔ Loaded cmds seg := by
  unfold Loaded
  induction cmds generalizing i with
  | nil => simp [placed]
  | cons cmd cmds ih =>
    cases cmd with
    | segment seg' =>
      unfold placed
      split_ifs with hzero
      · rw [ih, List.mem_cons]
        constructor
        · exact fun ⟨hmem, hsize⟩ => ⟨.inr hmem, hsize⟩
        · rintro ⟨hmem, hsize⟩
          obtain he | hmem := hmem
          · cases he
            exact absurd hzero hsize
          · exact ⟨hmem, hsize⟩
      · simp only [List.mem_cons, exists_or, ih, LoadCommand.segment.injEq, Prod.mk.injEq]
        constructor
        · rintro (⟨j, rfl, rfl⟩ | ⟨hmem, hsize⟩)
          · exact ⟨.inl rfl, hzero⟩
          · exact ⟨.inr hmem, hsize⟩
        · rintro ⟨rfl | hmem, hsize⟩
          · exact .inl ⟨i, rfl, rfl⟩
          · exact .inr ⟨hmem, hsize⟩
    | unixThread rip => simp [placed, ih]
    | other => simp [placed, ih]

/-- A segment that is placed is loaded. -/
lemma loaded_of_mem {cmds : List LoadCommand} {s : ℕ × Segment} (hs : s ∈ placed 0 cmds) :
    Loaded cmds s.2 :=
  exists_mem_placed_iff.1 ⟨s.1, hs⟩

/-- The numbers of the segments that are placed begin with the one of the first command. -/
lemma le_of_mem_placed {cmds : List LoadCommand} {i : ℕ} {s : ℕ × Segment}
    (h : s ∈ placed i cmds) : i ≤ s.1 := by
  induction cmds generalizing i with
  | nil => simp [placed] at h
  | cons cmd cmds ih =>
    cases cmd with
    | segment seg =>
      unfold placed at h
      split_ifs at h
      · exact (Nat.le_succ i).trans (ih h)
      · obtain rfl | h := List.mem_cons.mp h
        · exact Nat.le_refl _
        · exact (Nat.le_succ i).trans (ih h)
    | unixThread rip => exact (Nat.le_succ i).trans (ih h)
    | other => exact (Nat.le_succ i).trans (ih h)

/-- No two segments have the same number. -/
lemma placed_unique {cmds : List LoadCommand} {i : ℕ} {s t : ℕ × Segment}
    (hs : s ∈ placed i cmds) (ht : t ∈ placed i cmds) (he : s.1 = t.1) : s = t := by
  induction cmds generalizing i with
  | nil => simp [placed] at hs
  | cons cmd cmds ih =>
    cases cmd with
    | segment seg =>
      unfold placed at hs ht
      split_ifs at hs ht
      · exact ih hs ht
      · obtain rfl | hs := List.mem_cons.mp hs
        · obtain rfl | ht := List.mem_cons.mp ht
          · rfl
          · have hlt := le_of_mem_placed ht
            omega
        · obtain rfl | ht := List.mem_cons.mp ht
          · have hlt := le_of_mem_placed hs
            omega
          · exact ih hs ht
    | unixThread rip => exact ih hs ht
    | other => exact ih hs ht

/-! ## What lies behind the kernel -/

/-- `ramdisk_phys`, for a kernel that ends there. -/
def ramdiskPhys (kend : ℕ) : ℕ := sizeAdd kend (pagesFor sizeofBootArgs * pageSize % 2 ^ 64)

/-- `dt_phys`, for a RAM disk of this size. -/
def dtPhys (kend fileSize : ℕ) : ℕ :=
  sizeAdd (ramdiskPhys kend) (pagesFor fileSize * pageSize % 2 ^ 64)

/-- `mmap_phys`. -/
def mmapPhys (kend fileSize : ℕ) : ℕ := sizeAdd (dtPhys kend fileSize) (1 * pageSize % 2 ^ 64)

/-- `g_low_alloc_next` at the end. -/
def lowEnd (kend fileSize : ℕ) : ℕ := sizeAdd (mmapPhys kend fileSize) (8 * pageSize % 2 ^ 64)

/-- The objects behind the kernel, the last first. -/
def tailObjects (kend fileSize : ℕ) : List (Object × Range) :=
  [(.memoryMap, ⟨mmapPhys kend fileSize, 8 * pageSize⟩),
    (.deviceTree, ⟨dtPhys kend fileSize, 1 * pageSize⟩),
    (.ramdisk, ⟨ramdiskPhys kend, pagesFor fileSize * pageSize⟩),
    (.bootArgs, ⟨kend, pagesFor sizeofBootArgs * pageSize⟩)]

/-- What is written for them. -/
def tailWrites (kend fileSize userLen : ℕ) (maps : List MemoryMap) : List (Object × Range) :=
  (maps.flatMap fun m => rangesAt (mmapPhys kend fileSize) (memoryMapWrites m)).map
      (Object.memoryMap, ·) ++
    ((rangesAt kend (bootArgsWrites userLen)).map (Object.bootArgs, ·) ++
      ((rangesAt (dtPhys kend fileSize) (dtPut 0 deviceTree).2).map (Object.deviceTree, ·) ++
        [(Object.deviceTree, ⟨dtPhys kend fileSize, pageSize⟩),
          (.ramdisk, ⟨ramdiskPhys kend, fileSize⟩),
          (.ramdisk, ⟨ramdiskPhys kend, pagesFor fileSize * pageSize % 2 ^ 64⟩),
          (.bootArgs, ⟨kend, sizeofBootArgs⟩)]))

/-- What is converted for them. -/
def tailConverted (kaddr kend fileSize : ℕ) (maps : List MemoryMap) : List ℕ :=
  (maps.flatMap fun m => [mmapPhys kend fileSize, m.size, m.descSize]) ++
    [dtPhys kend fileSize, (dtPut 0 deviceTree).1, sizeSub (lowEnd kend fileSize) kaddr, kend,
      kaddr]

/-- The hand-off, for a loader that has placed the segments. -/
structure HandsOff (fw : Firmware) (userLen fileSize : ℕ) (l : Loader) (h : HandOff) : Prop where
  /-- There are segments. -/
  haveSeg : l.haveSeg = true
  /-- `boot_args` was allocated where the last of them ends, so that this is a page. -/
  aligned : pageSize ∣ l.kendLow32
  /-- The objects. -/
  objects : h.loader.objects = tailObjects l.kendLow32 fileSize ++ l.objects
  /-- They lie apart if the segments do. -/
  apart : l.objects.Pairwise (fun a b => a.2.Apart b.2) →
    h.loader.objects.Pairwise fun a b => a.2.Apart b.2
  /-- What is written. -/
  writes : h.loader.writes = tailWrites l.kendLow32 fileSize userLen (memoryMaps fw 4 0) ++ l.writes
  /-- What is converted. -/
  converted : h.loader.converted =
    tailConverted l.kaddrLow32 l.kendLow32 fileSize (memoryMaps fw 4 0) ++ l.converted
  /-- `ba->kaddr`. -/
  kaddr : h.kaddr = toUint32 l.kaddrLow32
  /-- `ba->ksize`. -/
  ksize : h.ksize = toUint32 (sizeSub (lowEnd l.kendLow32 fileSize) l.kaddrLow32)

/-- An allocation behind the kernel, when the next free address is known. -/
lemma allocLow_eq_some {fw : Firmware} {l l' : Loader} {o : Object} {n a : ℕ} (addr : ℕ)
    (h : allocLow fw l o n = some (a, l')) (haddr : l.gLowAllocNext = addr) :
    a = addr ∧
      l' = (l.place o addr n).setLowAllocNext (sizeAdd addr (n * pageSize % 2 ^ 64)) ∧
      pageSize ∣ addr ∧ ∀ a ∈ l.objects, Range.Apart ⟨addr, n * pageSize⟩ a.2 := by
  subst haddr
  unfold allocLow at h
  obtain ⟨m, hm, he⟩ := Option.map_eq_some_iff.mp h
  obtain ⟨rfl, haligned, hapart⟩ := allocatePages_eq_some hm
  obtain ⟨rfl, rfl⟩ := Prod.mk.inj he
  exact ⟨rfl, rfl, haligned, hapart⟩

/-- The RAM disk. -/
lemma loadRamdisk_eq_some {fw : Firmware} {l l' : Loader} {fileSize : ℕ} (addr : ℕ)
    (hsize : fw.ramdiskSize = some fileSize) (h : loadRamdisk fw l = some l')
    (haddr : l.gLowAllocNext = addr) :
    l' = (((l.place .ramdisk addr (pagesFor fileSize)).setLowAllocNext
        (sizeAdd addr (pagesFor fileSize * pageSize % 2 ^ 64))).write .ramdisk
          [⟨addr, pagesFor fileSize * pageSize % 2 ^ 64⟩]).write .ramdisk [⟨addr, fileSize⟩] ∧
      ∀ a ∈ l.objects, Range.Apart ⟨addr, pagesFor fileSize * pageSize⟩ a.2 := by
  unfold loadRamdisk at h
  simp only [hsize, Option.bind_eq_bind, Option.bind_some, Option.bind_eq_some_iff] at h
  obtain ⟨⟨a, m⟩, halloc, h⟩ := h
  obtain ⟨rfl, rfl, -, hapart⟩ := allocLow_eq_some addr halloc haddr
  dsimp only at h
  split_ifs at h
  exact ⟨(Option.some.inj h).symm, hapart⟩

/-- **The run.** A run that gets to the point where `ba->ksize` is filled in has placed the
segments, and behind them the other objects. -/
lemma efiMain_eq_some {fw : Firmware} {cmds : List LoadCommand} {userLen fileSize : ℕ} {h : HandOff}
    (hsize : fw.ramdiskSize = some fileSize) (hrun : efiMain fw cmds userLen = some h) :
    ∃ l, Lays l (placed 0 cmds).reverse ∧ HandsOff fw userLen fileSize l h := by
  unfold efiMain at hrun
  simp only [Option.bind_eq_bind, Option.bind_eq_some_iff] at hrun
  obtain ⟨l, hload, -, -, hrun⟩ := hrun
  have hlays := loadCommands_lays lays_nil hload
  rw [List.append_nil] at hlays
  refine ⟨l, hlays, ?_⟩
  split_ifs at hrun with hseg
  simp only [Option.bind_eq_some_iff] at hrun
  obtain ⟨⟨ba, l₁⟩, hba, l₂, hrd, ⟨dt, l₃⟩, hdt, ⟨mmap, l₄⟩, hmmap, hrun⟩ := hrun
  dsimp only at hrd hdt hmmap hrun
  obtain ⟨rfl, rfl, haligned, hapart⟩ := allocLow_eq_some l.kendLow32 hba rfl
  obtain ⟨rfl, hapart₁⟩ := loadRamdisk_eq_some (ramdiskPhys l.kendLow32) hsize hrd
    (by simp [ramdiskPhys])
  obtain ⟨rfl, rfl, -, hapart₂⟩ := allocLow_eq_some (dtPhys l.kendLow32 fileSize) hdt
    (by simp [dtPhys])
  obtain ⟨hmmapPhys, rfl, -, hapart₃⟩ := allocLow_eq_some (mmapPhys l.kendLow32 fileSize) hmmap
    (by simp [mmapPhys])
  rw [hmmapPhys] at hrun
  obtain rfl := Option.some.inj hrun
  exact
    { haveSeg := by simpa using hseg
      aligned := haligned
      objects := rfl
      apart := fun h =>
        (((h.cons hapart).cons hapart₁).cons hapart₂).cons hapart₃
      writes := by simp [tailWrites]
      converted := by simp [tailConverted, lowEnd]
      kaddr := rfl
      ksize := by simp [lowEnd] }

/-! ## The layout -/

/-- What the hand-off promises. -/
structure WellLaid (h : HandOff) : Prop where
  /-- What is written for an object lies in the pages that were allocated for it. -/
  owned : ∀ w ∈ h.loader.writes, ∃ r, (w.1, r) ∈ h.loader.objects ∧ w.2.Within r
  /-- No two objects have a byte in common. -/
  apart : h.loader.objects.Pairwise fun a b => a.2.Apart b.2
  /-- Every object lies in the kernel image that is reported. -/
  reported : ∀ a ∈ h.loader.objects, a.2.Within ⟨h.kaddr, h.ksize⟩
  /-- Every object lies below 4 GiB. -/
  low : ∀ a ∈ h.loader.objects, ∀ x, a.2.Has x → x < 2 ^ 32
  /-- No conversion changes a value. -/
  converted : ∀ n ∈ h.loader.converted, toUint32 n = n

/-- The end of everything, if a segment is the last one: behind it are the RAM disk and ten more
pages. -/
def Segment.lastEnd (seg : Segment) (fileSize : ℕ) : ℕ :=
  seg.segPhys + seg.vmsize + (pages pageSize fileSize + 10) * pageSize

/-- The kernel and the RAM disk fit. -/
structure Fits (cmds : List LoadCommand) (fileSize : ℕ) : Prop where
  /-- No segment has more bytes in the file than its pages hold. -/
  file : ∀ seg, Loaded cmds seg → seg.filesize ≤ pages pageSize seg.vmsize * pageSize
  /-- Everything ends at 4 GiB at the latest. -/
  low : ∀ seg, Loaded cmds seg → seg.lastEnd fileSize ≤ 2 ^ 32
  /-- From the first segment on, there are less than 4 GiB. -/
  size : ∀ seg first, Loaded cmds seg → Loaded cmds first →
    seg.lastEnd fileSize < 2 ^ 32 + first.segPhys

/-- The number of pages, if it is computed without a carry. -/
lemma pagesFor_of_le {n : ℕ} (h : n + pageSize ≤ 2 ^ 64) : pagesFor n = pages pageSize n := by
  unfold pagesFor pages sizeSub sizeAdd pageSize at *
  omega

/-- `boot_args` takes one page. -/
lemma pagesFor_sizeofBootArgs : pagesFor sizeofBootArgs = 1 := by decide

/-- Ranges that end in time lie in the room for them. -/
lemma within_rangesAt {base len : ℕ} {rs : List Range} (h : ∀ r ∈ rs, r.finish ≤ len) {w : Range}
    (hw : w ∈ rangesAt base rs) : w.Within ⟨base, len⟩ := by
  obtain ⟨r, hr, rfl⟩ := List.mem_map.mp hw
  have hle := h r hr
  unfold Range.finish at hle
  refine Range.within_of_le (Nat.le_add_right _ _) ?_
  rw [Range.finish_mk, Range.finish_mk]
  omega

/-- What is written to the command line lies in it. -/
lemma finish_commandLineWrites_le {userLen : ℕ} {r : Range} (hr : r ∈ commandLineWrites userLen) :
    r.finish ≤ bootLineLength := by
  have hlen : defaultCmdline.length = 60 := by decide
  have hline : bootLineLength = 1024 := rfl
  unfold commandLineWrites at hr
  simp only [hlen, hline] at hr ⊢
  have hshort : ¬1024 ≤ 60 := by decide
  simp only [if_neg hshort] at hr
  split at hr
  · simp only [List.mem_cons, List.not_mem_nil, or_false] at hr
    -- no more than what is left is taken of the characters
    have huser :
        (if 1024 - 1 - (60 + 1) < userLen then 1024 - 1 - (60 + 1) else userLen) ≤ 962 := by
      split <;> omega
    rcases hr with rfl | rfl | rfl | rfl <;> rw [Range.finish_mk] <;> omega
  · simp only [List.mem_cons, List.not_mem_nil, or_false] at hr
    rcases hr with rfl | rfl <;> rw [Range.finish_mk] <;> omega

/-- What is written to `boot_args` lies in it. -/
lemma finish_bootArgsWrites_le {userLen : ℕ} {r : Range} (hr : r ∈ bootArgsWrites userLen) :
    r.finish ≤ sizeofBootArgs := by
  have hfields : ∀ r ∈ bootArgsFields, r.finish ≤ sizeofBootArgs := by decide
  obtain hr | hr := List.mem_append.mp hr
  · exact hfields r hr
  · obtain ⟨c, hc, rfl⟩ := List.mem_map.mp hr
    have hline := finish_commandLineWrites_le hc
    rw [Range.finish_mk]
    unfold Range.finish bootLineLength at hline
    unfold commandLineOff sizeofBootArgs
    omega

/-- The device tree takes less than a page. -/
lemma finish_deviceTree_le {r : Range} (hr : r ∈ (dtPut 0 deviceTree).2) :
    r.finish ≤ 1 * pageSize := by
  have htree : ∀ r ∈ (dtPut 0 deviceTree).2, r.finish ≤ 1 * pageSize := by decide
  exact htree r hr

/-- What is written to the buffer of the memory map lies in it. -/
lemma finish_memoryMapWrites_le {m : MemoryMap} {r : Range} (hr : r ∈ memoryMapWrites m) :
    r.finish ≤ 8 * pageSize := by
  have hsize := m.size_le
  obtain rfl | hr := List.mem_cons.mp hr
  · simpa using hsize
  · obtain ⟨k, hk, rfl⟩ := List.mem_map.mp hr
    have hdesc := m.descSize_ge
    -- the descriptor ends within the map, and has room for its attribute
    have hend : (k + 1) * m.descSize ≤ m.size :=
      (Nat.mul_le_mul_right _ (List.mem_range.mp hk)).trans (Nat.div_mul_le_self _ _)
    rw [Nat.succ_mul] at hend
    rw [Range.finish_mk]
    omega

/-- The addresses behind the kernel, when nothing carries out. -/
structure Straight (kend fileSize : ℕ) : Prop where
  /-- The pages of the RAM disk. -/
  pages : pagesFor fileSize = pages pageSize fileSize
  /-- It lies behind the page of `boot_args`. -/
  ramdisk : ramdiskPhys kend = kend + pageSize
  /-- The device tree lies behind it. -/
  dt : dtPhys kend fileSize = kend + pageSize + pagesFor fileSize * pageSize
  /-- The memory map lies behind this. -/
  mmap : mmapPhys kend fileSize = kend + 2 * pageSize + pagesFor fileSize * pageSize
  /-- The end lies behind its eight pages. -/
  finish : lowEnd kend fileSize = kend + 10 * pageSize + pagesFor fileSize * pageSize

/-- Nothing carries out when everything lies below 4 GiB. -/
lemma straight_of_le {kend fileSize : ℕ} (hsize : fileSize ≤ pagesFor fileSize * pageSize)
    (h : kend + 10 * pageSize + pagesFor fileSize * pageSize ≤ 2 ^ 32) :
    Straight kend fileSize := by
  have hrd : ramdiskPhys kend = kend + pageSize := by
    unfold ramdiskPhys sizeAdd
    rw [pagesFor_sizeofBootArgs]
    unfold pageSize at *
    omega
  have hdt : dtPhys kend fileSize = kend + pageSize + pagesFor fileSize * pageSize := by
    unfold dtPhys sizeAdd
    rw [hrd]
    unfold pageSize at *
    omega
  have hmmap : mmapPhys kend fileSize = kend + 2 * pageSize + pagesFor fileSize * pageSize := by
    unfold mmapPhys sizeAdd
    rw [hdt]
    unfold pageSize at *
    omega
  refine ⟨pagesFor_of_le ?_, hrd, hdt, hmmap, ?_⟩
  · unfold pageSize at *
    omega
  · unfold lowEnd sizeAdd
    rw [hmmap]
    unfold pageSize at *
    omega

section

variable {fw : Firmware} {cmds : List LoadCommand} {userLen fileSize : ℕ} {l : Loader}
  {h : HandOff}

/-- The pages of a segment that fits. -/
lemma Fits.room_eq (hfits : Fits cmds fileSize) {s : ℕ × Segment} (hs : s ∈ placed 0 cmds) :
    pagesFor s.2.vmsize = pages pageSize s.2.vmsize ∧ s.2.segPages = pagesFor s.2.vmsize ∧
      sizeAdd s.2.segPhys s.2.vmsize = s.2.segPhys + s.2.vmsize := by
  have hend := hfits.low _ (loaded_of_mem hs)
  unfold Segment.lastEnd at hend
  have hpages : pagesFor s.2.vmsize = pages pageSize s.2.vmsize :=
    pagesFor_of_le (by unfold pageSize at *; omega)
  refine ⟨hpages, toUint32_of_lt ?_, sizeAdd_of_lt (by omega)⟩
  rw [hpages]
  unfold pages pageSize at *
  omega

/-- The kernel ends early enough. -/
lemma Fits.kendLow32_le (hfits : Fits cmds fileSize) (hl : Lays l (placed 0 cmds).reverse)
    (hseg : l.haveSeg = true) :
    l.kendLow32 + (pages pageSize fileSize + 10) * pageSize ≤ 2 ^ 32 := by
  rcases hl.kendLow32 with hzero | ⟨s, hs, he⟩
  · obtain ⟨s, hs⟩ := List.exists_mem_of_ne_nil _ (hl.haveSeg hseg)
    have hend := hfits.low _ (loaded_of_mem (List.mem_reverse.mp hs))
    unfold Segment.lastEnd at hend
    omega
  · have hs := List.mem_reverse.mp hs
    rw [he, (hfits.room_eq hs).2.2]
    exact hfits.low _ (loaded_of_mem hs)

/-- So nothing behind it carries out. -/
lemma Fits.straight (hfits : Fits cmds fileSize) (hl : Lays l (placed 0 cmds).reverse)
    (hseg : l.haveSeg = true) : Straight l.kendLow32 fileSize := by
  have hend := hfits.kendLow32_le hl hseg
  have hsize := le_pages_mul (show 0 < pageSize by decide) fileSize
  have hpages : pagesFor fileSize = pages pageSize fileSize :=
    pagesFor_of_le (by unfold pageSize at *; omega)
  refine straight_of_le (by rw [hpages]; exact hsize) ?_
  rw [hpages]
  unfold pageSize at *
  omega

/-- A segment lies between `kaddr_low32` and `kend_low32`, with all of its pages: these end at the
same page boundary as the kernel at the latest. -/
lemma Fits.room_le (hfits : Fits cmds fileSize) (hl : Lays l (placed 0 cmds).reverse)
    (hpage : pageSize ∣ l.kendLow32) {s : ℕ × Segment} (hs : s ∈ placed 0 cmds) :
    l.kaddrLow32 ≤ s.2.room.start ∧ s.2.room.finish ≤ l.kendLow32 := by
  have hs' := List.mem_reverse.mpr hs
  obtain ⟨hpages, hseg, hsum⟩ := hfits.room_eq hs
  have hkend := hl.le_kendLow32 s hs'
  rw [hsum] at hkend
  refine ⟨hl.kaddrLow32_le s hs', ?_⟩
  unfold Segment.room
  rw [Range.finish_mk, hseg, hpages]
  exact add_pages_le (by decide) (hl.aligned s hs') hpage hkend

/-- Everything lies between `kaddr_low32` and `g_low_alloc_next`. -/
lemma Fits.object_le (hfits : Fits cmds fileSize) (hl : Lays l (placed 0 cmds).reverse)
    (hh : HandsOff fw userLen fileSize l h) {a : Object × Range} (ha : a ∈ h.loader.objects) :
    l.kaddrLow32 ≤ a.2.start ∧ a.2.finish ≤ lowEnd l.kendLow32 fileSize := by
  have hstraight := hfits.straight hl hh.haveSeg
  have hlow : l.kaddrLow32 ≤ l.kendLow32 := by
    obtain ⟨s, hs⟩ := List.exists_mem_of_ne_nil _ (hl.haveSeg hh.haveSeg)
    have hroom := hfits.room_le hl hh.aligned (List.mem_reverse.mp hs)
    unfold Range.finish at hroom
    omega
  rw [hstraight.finish]
  rw [hh.objects] at ha
  obtain ha | ha := List.mem_append.mp ha
  · simp only [tailObjects, hstraight.ramdisk, hstraight.dt, hstraight.mmap,
      pagesFor_sizeofBootArgs, List.mem_cons, List.not_mem_nil, or_false] at ha
    rcases ha with rfl | rfl | rfl | rfl <;> rw [Range.finish_mk] <;> dsimp only <;> omega
  · rw [hl.objects] at ha
    obtain ⟨s, hs, rfl⟩ := List.mem_map.mp ha
    have hroom := hfits.room_le hl hh.aligned (List.mem_reverse.mp hs)
    dsimp only
    omega

/-- What is written for a segment lies in its pages. -/
lemma Fits.fills_within (hfits : Fits cmds fileSize) {s : ℕ × Segment} (hs : s ∈ placed 0 cmds)
    {w : Range} (hw : w ∈ s.2.fills) : w.Within s.2.room := by
  obtain ⟨hpages, hseg, -⟩ := hfits.room_eq hs
  have hfile := hfits.file _ (loaded_of_mem hs)
  have hend := hfits.low _ (loaded_of_mem hs)
  unfold Segment.lastEnd at hend
  have hvm := le_pages_mul (show 0 < pageSize by decide) s.2.vmsize
  have hroom : s.2.room = ⟨s.2.segPhys, pages pageSize s.2.vmsize * pageSize⟩ := by
    unfold Segment.room
    rw [hseg, hpages]
  rw [hroom]
  obtain hw | hw := List.mem_append.mp hw
  · -- the zeros go up to the end of the segment
    split_ifs at hw with hless
    · obtain rfl := List.mem_singleton.mp hw
      have hadd : sizeAdd s.2.segPhys s.2.filesize = s.2.segPhys + s.2.filesize :=
        sizeAdd_of_lt (by omega)
      rw [hadd, sizeSub_of_le hless.le s.2.vmsize_lt]
      refine Range.within_of_le (Nat.le_add_right _ _) ?_
      rw [Range.finish_mk, Range.finish_mk]
      omega
    · cases hw
  · split_ifs at hw
    · obtain rfl := List.mem_singleton.mp hw
      refine Range.within_of_le (Nat.le_refl _) ?_
      rw [Range.finish_mk, Range.finish_mk]
      omega
    · cases hw

/-- There is an object of each kind behind the kernel. -/
lemma mem_tailObjects (kend fileSize : ℕ) :
    (.memoryMap, ⟨mmapPhys kend fileSize, 8 * pageSize⟩) ∈ tailObjects kend fileSize ∧
      (.deviceTree, ⟨dtPhys kend fileSize, 1 * pageSize⟩) ∈ tailObjects kend fileSize ∧
      (.ramdisk, ⟨ramdiskPhys kend, pagesFor fileSize * pageSize⟩) ∈ tailObjects kend fileSize ∧
      (.bootArgs, ⟨kend, sizeofBootArgs⟩) ∈ tailObjects kend fileSize := by
  have hargs : pagesFor sizeofBootArgs * pageSize = sizeofBootArgs := by decide
  unfold tailObjects
  rw [hargs]
  simp

/-- What is written behind the kernel lies in the pages of its objects. -/
lemma tailWrites_owned (hsize : fileSize ≤ pagesFor fileSize * pageSize) {kend : ℕ}
    {maps : List MemoryMap} {w : Object × Range} (hw : w ∈ tailWrites kend fileSize userLen maps) :
    ∃ r, (w.1, r) ∈ tailObjects kend fileSize ∧ w.2.Within r := by
  obtain ⟨hmmap, hdt, hrd, hba⟩ := mem_tailObjects kend fileSize
  unfold tailWrites at hw
  obtain hw | hw := List.mem_append.mp hw
  · obtain ⟨r, hr, rfl⟩ := List.mem_map.mp hw
    obtain ⟨m, -, hm⟩ := List.mem_flatMap.mp hr
    exact ⟨_, hmmap, within_rangesAt (fun _ => finish_memoryMapWrites_le) hm⟩
  obtain hw | hw := List.mem_append.mp hw
  · obtain ⟨r, hr, rfl⟩ := List.mem_map.mp hw
    exact ⟨_, hba, within_rangesAt (fun _ => finish_bootArgsWrites_le) hr⟩
  obtain hw | hw := List.mem_append.mp hw
  · obtain ⟨r, hr, rfl⟩ := List.mem_map.mp hw
    exact ⟨_, hdt, within_rangesAt (fun _ => finish_deviceTree_le) hr⟩
  · simp only [List.mem_cons, List.not_mem_nil, or_false] at hw
    have hmod := Nat.mod_le (pagesFor fileSize * pageSize) (2 ^ 64)
    rcases hw with rfl | rfl | rfl | rfl
    · exact ⟨_, hdt, Range.within_of_le (Nat.le_refl _) (by simp)⟩
    · exact ⟨_, hrd, Range.within_of_le (Nat.le_refl _) (Nat.add_le_add_left hsize _)⟩
    · exact ⟨_, hrd, Range.within_of_le (Nat.le_refl _) (Nat.add_le_add_left hmod _)⟩
    · exact ⟨_, hba, fun _ hx => hx⟩

/-- The kernel and what lies behind it take less than 4 GiB from `kaddr_low32` on. -/
lemma Fits.lowEnd_lt (hfits : Fits cmds fileSize) (hl : Lays l (placed 0 cmds).reverse)
    (hseg : l.haveSeg = true) :
    l.kendLow32 + (pages pageSize fileSize + 10) * pageSize < 2 ^ 32 + l.kaddrLow32 := by
  rcases hl.kaddrLow32 with hmax | ⟨first, hfirst, hkaddr⟩
  · have hend := hfits.kendLow32_le hl hseg
    omega
  · have hfirst := loaded_of_mem (List.mem_reverse.mp hfirst)
    rw [hkaddr]
    rcases hl.kendLow32 with hzero | ⟨s, hs, he⟩
    · have hsize := hfits.size _ _ hfirst hfirst
      unfold Segment.lastEnd at hsize
      omega
    · have hs := List.mem_reverse.mp hs
      rw [he, (hfits.room_eq hs).2.2]
      exact hfits.size _ _ (loaded_of_mem hs) hfirst

omit fw cmds userLen l h in
/-- What is converted behind the kernel fits in a `uint32_t`. -/
lemma Straight.converted_lt {kaddr kend n : ℕ} {maps : List MemoryMap}
    (hstraight : Straight kend fileSize)
    (hend : kend + 10 * pageSize + pagesFor fileSize * pageSize ≤ 2 ^ 32)
    (hsize : sizeSub (lowEnd kend fileSize) kaddr < 2 ^ 32) (hkaddr : kaddr ≤ kend)
    (hn : n ∈ tailConverted kaddr kend fileSize maps) : n < 2 ^ 32 := by
  have hpage : pageSize = 4096 := rfl
  unfold tailConverted at hn
  rw [hstraight.dt, hstraight.mmap] at hn
  obtain hn | hn := List.mem_append.mp hn
  · obtain ⟨m, -, hm⟩ := List.mem_flatMap.mp hn
    have hmap := m.size_le
    have hdesc := Nat.le_of_dvd m.size_pos m.dvd
    simp only [List.mem_cons, List.not_mem_nil, or_false] at hm
    rcases hm with rfl | rfl | rfl <;> omega
  · have htree : (dtPut 0 deviceTree).1 < 2 ^ 32 := by decide
    simp only [List.mem_cons, List.not_mem_nil, or_false] at hn
    rcases hn with rfl | rfl | rfl | rfl | rfl
    · omega
    · exact htree
    · exact hsize
    · omega
    · omega

/-- **What fits is well laid.**

**Proof sketch.** Nothing carries out, so that the objects behind the kernel lie one behind the
other and end below 4 GiB. The kernel ends at a page, because `boot_args` was allocated there, so
that all pages of the segments end there as well. That the objects lie apart is what the firmware
promises. -/
lemma Fits.wellLaid (hfits : Fits cmds fileSize) (hl : Lays l (placed 0 cmds).reverse)
    (hh : HandsOff fw userLen fileSize l h) : WellLaid h := by
  have hstraight := hfits.straight hl hh.haveSeg
  have hend := hfits.kendLow32_le hl hh.haveSeg
  have hlt := hfits.lowEnd_lt hl hh.haveSeg
  have hlowEnd : lowEnd l.kendLow32 fileSize =
      l.kendLow32 + (pages pageSize fileSize + 10) * pageSize := by
    rw [hstraight.finish, hstraight.pages]
    unfold pageSize
    omega
  rw [← hlowEnd] at hend hlt
  have hobject : ∀ a ∈ h.loader.objects,
      l.kaddrLow32 ≤ a.2.start ∧ a.2.finish ≤ lowEnd l.kendLow32 fileSize := fun a ha =>
    hfits.object_le hl hh ha
  have htail : ∀ a ∈ tailObjects l.kendLow32 fileSize, a ∈ h.loader.objects := fun a ha => by
    rw [hh.objects]
    exact List.mem_append_left _ ha
  have hbefore : l.kaddrLow32 ≤ l.kendLow32 :=
    (hobject _ (htail _ (mem_tailObjects _ _).2.2.2)).1
  -- the address and the size of the image are reported as they are
  have hkaddr : toUint32 l.kaddrLow32 = l.kaddrLow32 := toUint32_of_lt (by
    rw [hstraight.finish] at hend
    unfold pageSize at hend
    omega)
  have hsub : sizeSub (lowEnd l.kendLow32 fileSize) l.kaddrLow32 =
      lowEnd l.kendLow32 fileSize - l.kaddrLow32 :=
    sizeSub_of_le (by rw [hstraight.finish]; omega) (by omega)
  have hsize : toUint32 (sizeSub (lowEnd l.kendLow32 fileSize) l.kaddrLow32) =
      lowEnd l.kendLow32 fileSize - l.kaddrLow32 := by
    rw [hsub]
    exact toUint32_of_lt (by omega)
  exact
    { owned := by
        rw [hh.writes, hh.objects]
        intro w hw
        obtain hw | hw := List.mem_append.mp hw
        · have hfile : fileSize ≤ pagesFor fileSize * pageSize := by
            rw [hstraight.pages]
            exact le_pages_mul (by decide) fileSize
          obtain ⟨r, hr, hwithin⟩ := tailWrites_owned hfile hw
          exact ⟨r, List.mem_append_left _ hr, hwithin⟩
        · rw [hl.writes] at hw
          obtain ⟨s, hs, hw⟩ := List.mem_flatMap.mp hw
          obtain ⟨r, hr, rfl⟩ := List.mem_map.mp hw
          refine ⟨s.2.room, List.mem_append_right _ ?_,
            hfits.fills_within (List.mem_reverse.mp hs) hr⟩
          rw [hl.objects]
          exact List.mem_map.mpr ⟨s, hs, rfl⟩
      apart := hh.apart hl.apart
      reported := by
        intro a ha
        obtain ⟨hstart, hfinish⟩ := hobject a ha
        rw [hh.kaddr, hh.ksize, hkaddr, hsize]
        refine Range.within_of_le hstart ?_
        show a.2.finish ≤ l.kaddrLow32 + (lowEnd l.kendLow32 fileSize - l.kaddrLow32)
        omega
      low := fun a ha x hx => (hx.2.trans_le (hobject a ha).2).trans_le hend
      converted := by
        intro n hn
        refine toUint32_of_lt ?_
        rw [hh.converted] at hn
        obtain hn | hn := List.mem_append.mp hn
        · refine hstraight.converted_lt ?_ ?_ ?_ hn
          · rw [← hstraight.finish]
            exact hend
          · rw [hsub]
            omega
          · exact hbefore
        · rcases hl.converted n hn with rfl | ⟨s, hs, rfl⟩
          · decide
          · rw [← (hfits.room_eq (List.mem_reverse.mp hs)).2.1]
            exact toUint32_lt _ }

/-- The pages of a segment are those that were allocated for it, and no others. -/
lemma eq_room_of_mem (hl : Lays l (placed 0 cmds).reverse)
    (hh : HandsOff fw userLen fileSize l h) {s : ℕ × Segment} (hs : s ∈ placed 0 cmds) {r : Range}
    (hr : (Object.segment s.1, r) ∈ h.loader.objects) : r = s.2.room := by
  rw [hh.objects] at hr
  obtain hr | hr := List.mem_append.mp hr
  · simp [tailObjects] at hr
  · rw [hl.objects] at hr
    obtain ⟨t, ht, he⟩ := List.mem_map.mp hr
    obtain ⟨hi, rfl⟩ := Prod.mk.inj he
    rw [placed_unique (List.mem_reverse.mp ht) hs (Object.segment.inj hi)]

/-- The same for the RAM disk. -/
lemma eq_ramdisk_of_mem (hl : Lays l (placed 0 cmds).reverse)
    (hh : HandsOff fw userLen fileSize l h) {r : Range}
    (hr : (Object.ramdisk, r) ∈ h.loader.objects) :
    r = ⟨ramdiskPhys l.kendLow32, pagesFor fileSize * pageSize⟩ := by
  rw [hh.objects] at hr
  obtain hr | hr := List.mem_append.mp hr
  · simpa [tailObjects] using hr
  · rw [hl.objects] at hr
    simp at hr

/-- What is written for a segment lies in its pages, if the layout is good. -/
lemma WellLaid.fills_within (hlaid : WellLaid h) (hl : Lays l (placed 0 cmds).reverse)
    (hh : HandsOff fw userLen fileSize l h) {s : ℕ × Segment} (hs : s ∈ placed 0 cmds) {w : Range}
    (hw : w ∈ s.2.fills) : w.Within s.2.room := by
  obtain ⟨r, hr, hwithin⟩ := hlaid.owned (Object.segment s.1, w) (by
    rw [hh.writes, hl.writes]
    refine List.mem_append_right _ (List.mem_flatMap.mpr ⟨s, List.mem_reverse.mpr hs, ?_⟩)
    exact List.mem_map.mpr ⟨w, hw, rfl⟩)
  rwa [eq_room_of_mem hl hh hs hr] at hwithin

/-- **The pages of a segment, if the layout is good.** They lie below 4 GiB and hold the segment, in
memory and in the file. -/
lemma WellLaid.room_eq (hlaid : WellLaid h) (hl : Lays l (placed 0 cmds).reverse)
    (hh : HandsOff fw userLen fileSize l h) {s : ℕ × Segment} (hs : s ∈ placed 0 cmds) :
    s.2.vmsize ≤ s.2.segPages * pageSize ∧ s.2.filesize ≤ s.2.segPages * pageSize ∧
      s.2.segPhys + s.2.segPages * pageSize ≤ 2 ^ 32 := by
  have hsize := (loaded_of_mem hs).2
  have hphys : s.2.segPhys < 2 ^ 32 := toUint32_lt _
  have hpages : s.2.segPages * pageSize < 2 ^ 44 := by
    have hlt : s.2.segPages < 2 ^ 32 := toUint32_lt _
    unfold pageSize
    omega
  -- the bytes of the file
  have hfile : s.2.filesize ≤ s.2.segPages * pageSize := by
    rcases Nat.eq_zero_or_pos s.2.filesize with hzero | hpos
    · omega
    · have hwithin := hlaid.fills_within hl hh hs (w := ⟨s.2.segPhys, s.2.filesize⟩)
        (List.mem_append_right _ (by rw [if_pos hpos]; exact List.mem_singleton_self _))
      have hle := (hwithin.le hpos).2
      unfold Segment.room at hle
      rw [Range.finish_mk, Range.finish_mk] at hle
      omega
  -- the zeros behind them
  have hvm : s.2.vmsize ≤ s.2.segPages * pageSize := by
    rcases Nat.lt_or_ge s.2.filesize s.2.vmsize with hless | hge
    · have hwithin := hlaid.fills_within hl hh hs
        (w := ⟨sizeAdd s.2.segPhys s.2.filesize, sizeSub s.2.vmsize s.2.filesize⟩)
        (List.mem_append_left _ (by rw [if_pos hless]; exact List.mem_singleton_self _))
      have hadd : sizeAdd s.2.segPhys s.2.filesize = s.2.segPhys + s.2.filesize :=
        sizeAdd_of_lt (by omega)
      rw [hadd, sizeSub_of_le hless.le s.2.vmsize_lt] at hwithin
      have hle := (hwithin.le (by dsimp only; omega)).2
      unfold Segment.room at hle
      rw [Range.finish_mk, Range.finish_mk] at hle
      omega
    · omega
  refine ⟨hvm, hfile, ?_⟩
  have hmem : (Object.segment s.1, s.2.room) ∈ h.loader.objects := by
    rw [hh.objects, hl.objects]
    exact List.mem_append_right _ (List.mem_map.mpr ⟨s, List.mem_reverse.mpr hs, rfl⟩)
  exact Range.finish_le_of_has_lt (hlaid.low _ hmem) (by unfold Segment.room; dsimp only; omega)

/-- So the segment ends at its end, and no later than the kernel. -/
lemma WellLaid.le_kendLow32 (hlaid : WellLaid h) (hl : Lays l (placed 0 cmds).reverse)
    (hh : HandsOff fw userLen fileSize l h) {s : ℕ × Segment} (hs : s ∈ placed 0 cmds) :
    s.2.segPhys + s.2.vmsize ≤ l.kendLow32 := by
  obtain ⟨hvm, -, hlow⟩ := hlaid.room_eq hl hh hs
  have hle := hl.le_kendLow32 s (List.mem_reverse.mpr hs)
  rwa [sizeAdd_of_lt (by omega)] at hle

/-- **What lies behind the kernel, if the layout is good.** Nothing carries out there. -/
lemma WellLaid.straight (hlaid : WellLaid h) (hl : Lays l (placed 0 cmds).reverse)
    (hh : HandsOff fw userLen fileSize l h) :
    Straight l.kendLow32 fileSize ∧ lowEnd l.kendLow32 fileSize ≤ 2 ^ 32 := by
  obtain ⟨hmmap, hdt, hrd, hba⟩ := mem_tailObjects l.kendLow32 fileSize
  have hfinish : ∀ a ∈ tailObjects l.kendLow32 fileSize, 0 < a.2.len → a.2.finish ≤ 2 ^ 32 :=
    fun a ha => Range.finish_le_of_has_lt (hlaid.low a (by
      rw [hh.objects]
      exact List.mem_append_left _ ha))
  have hpage : pageSize = 4096 := rfl
  have hargs : sizeofBootArgs = 4096 := rfl
  -- one object after the other ends below 4 GiB, so that the next address does not carry out
  have h₁ : l.kendLow32 + pageSize ≤ 2 ^ 32 := hfinish _ hba (show 0 < sizeofBootArgs by decide)
  have hramdisk : ramdiskPhys l.kendLow32 = l.kendLow32 + pageSize := by
    unfold ramdiskPhys sizeAdd
    rw [pagesFor_sizeofBootArgs]
    omega
  have h₂ : l.kendLow32 + pageSize + pagesFor fileSize * pageSize ≤ 2 ^ 32 := by
    rcases Nat.eq_zero_or_pos (pagesFor fileSize) with hzero | hpos
    · rw [hzero]
      omega
    · have hle := hfinish _ hrd (Nat.mul_pos hpos (by decide))
      rwa [Range.finish_mk, hramdisk] at hle
  have hdtPhys : dtPhys l.kendLow32 fileSize =
      l.kendLow32 + pageSize + pagesFor fileSize * pageSize := by
    unfold dtPhys sizeAdd
    rw [hramdisk]
    omega
  have h₃ := hfinish _ hdt (show 0 < 1 * pageSize by decide)
  rw [Range.finish_mk, hdtPhys] at h₃
  have hmmapPhys : mmapPhys l.kendLow32 fileSize =
      l.kendLow32 + pageSize + pagesFor fileSize * pageSize + pageSize := by
    unfold mmapPhys sizeAdd
    rw [hdtPhys]
    omega
  have h₄ := hfinish _ hmmap (show 0 < 8 * pageSize by decide)
  rw [Range.finish_mk, hmmapPhys] at h₄
  -- the RAM disk was read into its pages
  have hfile : fileSize ≤ pagesFor fileSize * pageSize := by
    rcases Nat.eq_zero_or_pos fileSize with hzero | hpos
    · omega
    · obtain ⟨r, hr, hwithin⟩ :=
        hlaid.owned (Object.ramdisk, ⟨ramdiskPhys l.kendLow32, fileSize⟩) (by
          rw [hh.writes]
          simp [tailWrites])
      rw [eq_ramdisk_of_mem hl hh hr] at hwithin
      have hle := (hwithin.le hpos).2
      rw [Range.finish_mk, Range.finish_mk] at hle
      omega
  have hstraight := straight_of_le hfile
    (show l.kendLow32 + 10 * pageSize + pagesFor fileSize * pageSize ≤ 2 ^ 32 by omega)
  refine ⟨hstraight, ?_⟩
  rw [hstraight.finish]
  omega

/-- **What is well laid fits.**

**Proof sketch.** What is written for a segment lies in its pages, which bounds its size in the file
and in memory. The pages lie below 4 GiB, so that no sum carries out and the kernel ends behind each
of the segments. Behind it, all objects lie below 4 GiB as well, and the size of the image is
reported as it is. -/
lemma WellLaid.fits (hlaid : WellLaid h) (hl : Lays l (placed 0 cmds).reverse)
    (hh : HandsOff fw userLen fileSize l h) : Fits cmds fileSize := by
  obtain ⟨hstraight, hend⟩ := hlaid.straight hl hh
  have hlowEnd : lowEnd l.kendLow32 fileSize =
      l.kendLow32 + (pages pageSize fileSize + 10) * pageSize := by
    rw [hstraight.finish, hstraight.pages]
    unfold pageSize
    omega
  have hkend : ∀ seg, Loaded cmds seg → seg.lastEnd fileSize ≤ lowEnd l.kendLow32 fileSize := by
    intro seg hseg
    obtain ⟨i, hs⟩ := exists_mem_placed_iff.mpr hseg
    have hle := hlaid.le_kendLow32 hl hh hs
    rw [hlowEnd]
    exact Nat.add_le_add_right hle _
  exact
    { file := by
        intro seg hseg
        obtain ⟨i, hs⟩ := exists_mem_placed_iff.mpr hseg
        obtain ⟨hvm, hfile, hlow⟩ := hlaid.room_eq hl hh hs
        dsimp only at hvm hfile hlow
        have hpages : seg.segPages ≤ pages pageSize seg.vmsize := by
          rw [← pagesFor_of_le (by unfold pageSize; omega)]
          exact toUint32_le _
        exact hfile.trans (Nat.mul_le_mul_right _ hpages)
      low := fun seg hseg => (hkend seg hseg).trans hend
      size := by
        intro seg first hseg hfirst
        obtain ⟨i, hs⟩ := exists_mem_placed_iff.mpr hfirst
        have hkaddr := hl.kaddrLow32_le _ (List.mem_reverse.mpr hs)
        have hle := hlaid.le_kendLow32 hl hh hs
        have hconv := hlaid.converted (sizeSub (lowEnd l.kendLow32 fileSize) l.kaddrLow32) (by
          rw [hh.converted]
          simp [tailConverted])
        have hlt := toUint32_lt (sizeSub (lowEnd l.kendLow32 fileSize) l.kaddrLow32)
        rw [hconv, sizeSub_of_le (by omega) (by omega)] at hlt
        have hlast := hkend seg hseg
        dsimp only at hkaddr
        omega }

/-- **The layout of the hand-off.** When `efi_main` gets to the point where it fills in `ba->ksize`,
what it wrote lies in the pages of the objects it was written for, these lie apart, in the image
that is reported and below 4 GiB, and no address or size was cut off, exactly if the kernel and the
RAM disk fit. -/
theorem wellLaid_iff (hsize : fw.ramdiskSize = some fileSize)
    (hrun : efiMain fw cmds userLen = some h) : WellLaid h ↔ Fits cmds fileSize := by
  obtain ⟨l, hl, hh⟩ := efiMain_eq_some hsize hrun
  constructor
  · exact fun hlaid => hlaid.fits hl hh
  · exact fun hfits => hfits.wellLaid hl hh

end

/-! ## Two kernels -/

/-- A firmware that gives every page that is free, with a RAM disk of one page. -/
def givesFree : Firmware where
  used := []
  allocatePages inUse n addr :=
    decide (pageSize ∣ addr) && (decide (addr + n * pageSize ≤ 2 ^ 64) &&
      inUse.all fun r => decide (r.finish ≤ addr ∨ addr + n * pageSize ≤ r.start))
  free inUse n addr h := by
    simp only [Bool.and_eq_true, decide_eq_true_eq, List.all_eq_true] at h
    exact ⟨h.1, h.2.1, fun r hr => Range.apart_of_le (h.2.2 r hr)⟩
  readKernel _ _ := true
  ramdiskSize := some 4096
  ramdiskSize_lt := by
    rintro _ ⟨⟩
    decide
  readRamdisk _ := true
  getMemoryMap _ := some
    { size := 48, descSize := 48, size_pos := by decide, size_le := by decide
      descSize_ge := by decide, dvd := Nat.dvd_refl _ }
  exitBootServices _ := true

/-- A kernel of one segment of a page, with so many bytes in the file. -/
def onePage (filesize : ℕ) (hlt : filesize < 2 ^ 64) : List LoadCommand :=
  [.segment
      { vmaddr := 0xFFFFFF8000100000, vmsize := 0x1000, fileoff := 0, filesize
        vmsize_lt := by decide, filesize_lt := hlt },
    .unixThread (some 0xFFFFFF8000100000)]

/-- The layout is good for a kernel of one full page. -/
theorem wellLaid_iff_onePage :
    ∃ h, efiMain givesFree (onePage 0x1000 (by decide)) 0 = some h ∧ WellLaid h := by
  have hsome : (efiMain givesFree (onePage 0x1000 (by decide)) 0).isSome = true := by decide
  obtain ⟨h, hrun⟩ := Option.isSome_iff_exists.mp hsome
  have hseg : ∀ seg, Loaded (onePage 0x1000 (by decide)) seg →
      seg.segPhys = 0x100000 ∧ seg.vmsize = 0x1000 ∧ seg.filesize = 0x1000 := by
    rintro seg ⟨hmem, -⟩
    obtain he | hmem := List.mem_cons.mp hmem
    · cases he
      decide
    · simp at hmem
  have hend : ∀ seg, Loaded (onePage 0x1000 (by decide)) seg →
      seg.lastEnd 4096 = 0x10C000 := by
    intro seg hloaded
    unfold Segment.lastEnd
    rw [(hseg seg hloaded).1, (hseg seg hloaded).2.1]
    decide
  refine ⟨h, hrun, (wellLaid_iff rfl hrun).mpr ⟨fun seg hloaded => ?_, fun seg hloaded => ?_,
    fun seg first hloaded hfirst => ?_⟩⟩
  · rw [(hseg seg hloaded).2.1, (hseg seg hloaded).2.2]
    decide
  · rw [hend seg hloaded]
    decide
  · rw [hend seg hloaded]
    omega

/-- It is not if the file has three pages for it: what is read runs over the page of `boot_args` and
the one of the RAM disk. -/
theorem not_wellLaid_onePage :
    ∃ h, efiMain givesFree (onePage 0x3000 (by decide)) 0 = some h ∧ ¬WellLaid h := by
  have hsome : (efiMain givesFree (onePage 0x3000 (by decide)) 0).isSome = true := by decide
  obtain ⟨h, hrun⟩ := Option.isSome_iff_exists.mp hsome
  obtain ⟨l, hl, hh⟩ := efiMain_eq_some rfl hrun
  refine ⟨h, hrun, fun hlaid => ?_⟩
  have hfile := (hlaid.fits hl hh).file _ ⟨List.mem_cons_self, by decide⟩
  exact absurd hfile (by decide)

end Asteros.Boot
