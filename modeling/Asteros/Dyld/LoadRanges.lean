import Asteros.Dyld.LoaderRuns

set_option autoImplicit false

/-!
# Where dylibs are mapped

Every dylib gets slots of its own. Their size comes from the highest end of a segment and from the
address of the segment with the header, while every segment is mapped: a segment fits if its
distance from the one with the header, modulo `2 ^ 64`, leaves room for it.

## Main definitions

* `Placement.Inside`, `Placement.Apart` — the dylib keeps to its slots, and two dylibs have nothing
  in common.
* `KeepsSlots` — all dylibs do.
* `Placement.Fits`, `Placement.Clear` — what the segments have to meet.

## Main results

* `keepsSlots_iff` — when all dylibs keep to their slots.
-/

namespace Asteros.Dyld

open Asteros.Libc Outcome

/-! ## Slots -/

/-- All mapped ranges are in the slots. -/
def Placement.Inside (p : Placement) : Prop :=
  ∀ r ∈ p.ranges, p.loadAddr ≤ r.1 ∧ r.1 + r.2 ≤ p.loadAddr + p.size

/-- No mapped range of one has an address in common with one of the other. -/
def Placement.Apart (p q : Placement) : Prop :=
  ∀ r ∈ p.ranges, ∀ s ∈ q.ranges, r.1 + r.2 ≤ s.1 ∨ s.1 + s.2 ≤ r.1

/-- Every dylib is mapped in its slots, and no two overlap. -/
def KeepsSlots (t : Table) : Prop :=
  (∀ p ∈ t.placements, p.Inside) ∧ t.placements.Pairwise Placement.Apart

/-- The address of the segment with the header. -/
def headerAddr (cmds : List LoadCommand) : ℕ := (firstPass cmds (2 ^ 64 - 1) 0).1

/-- The distance of a segment from the one with the header, modulo `2 ^ 64`. -/
def Placement.offset (p : Placement) (s : Segment) : ℕ := sizeSub s.vmaddr (headerAddr p.cmds)

/-- Every segment that is mapped has room in the slots, and its address is one. -/
def Placement.Fits (p : Placement) : Prop :=
  ∀ sc, .segment sc ∈ p.cmds → 0 < sc.segment.vmsize →
    p.offset sc.segment + sc.segment.vmsize ≤ p.size ∧ p.loadAddr + p.offset sc.segment < 2 ^ 64

/-- No segment of one is put where a segment of the other is, each in its slots. -/
def Placement.Clear (p q : Placement) : Prop :=
  ∀ sc, .segment sc ∈ p.cmds → 0 < sc.segment.vmsize →
    ∀ sc', .segment sc' ∈ q.cmds → 0 < sc'.segment.vmsize →
      p.loadAddr + p.offset sc.segment + sc.segment.vmsize ≤ q.loadAddr + q.offset sc'.segment ∨
        q.loadAddr + q.offset sc'.segment + sc'.segment.vmsize ≤ p.loadAddr + p.offset sc.segment

/-- Whether a dylib keeps to its slots can be decided. -/
instance (p : Placement) : Decidable p.Inside :=
  inferInstanceAs (Decidable (∀ r ∈ p.ranges, _))

/-- The segment of a command. -/
def LoadCommand.segment? : LoadCommand → Option SegmentCommand
  | .segment sc => some sc
  | _ => none

/-- So can whether its segments fit. -/
instance (p : Placement) : Decidable p.Fits :=
  decidable_of_iff (∀ sc ∈ p.cmds.filterMap LoadCommand.segment?, 0 < sc.segment.vmsize →
      p.offset sc.segment + sc.segment.vmsize ≤ p.size ∧
        p.loadAddr + p.offset sc.segment < 2 ^ 64) <| by
    constructor
    · exact fun h sc hsc => h sc (List.mem_filterMap.mpr ⟨_, hsc, rfl⟩)
    · intro h sc hsc
      obtain ⟨cmd, hcmd, hsegment⟩ := List.mem_filterMap.mp hsc
      cases cmd with
      | segment sc' =>
        obtain rfl := Option.some.inj hsegment
        exact h _ hcmd
      | _ => cases hsegment

/-- The size of all slots. -/
def slotsTotal (ps : List Placement) : ℕ := (ps.map Placement.size).sum

/-! ## What the loader maps -/

/-- The ranges that the second pass maps. -/
def segmentRanges (slide : ℕ) (cmds : List LoadCommand) : List (ℕ × ℕ) :=
  cmds.filterMap fun cmd =>
    match cmd with
    | .segment sc =>
      if 0 < sc.segment.vmsize then some (sizeAdd sc.segment.vmaddr slide, sc.segment.vmsize)
      else none
    | _ => none

/-- The slots follow each other from one address to another. -/
def Chained : ℕ → List Placement → ℕ → Prop
  | base, [], next => base = next
  | base, p :: ps, next => p.loadAddr = base ∧ Chained (sizeAdd base p.size) ps next

/-- The slots so far follow each other, and their dylibs are mapped as their segments say. -/
structure Placed (t : Table) : Prop where
  chained : Chained Table.empty.nextDylibBase t.placements t.nextDylibBase
  fits : t.nextDylibBase < 2 ^ 64
  ranges : ∀ p ∈ t.placements, p.loadAddr < 2 ^ 64 ∧
    p.ranges = segmentRanges (sizeSub p.loadAddr (headerAddr p.cmds)) p.cmds

/-- Another slot. -/
lemma Chained.concat {ps : List Placement} {base next : ℕ} (h : Chained base ps next)
    {p : Placement} (hp : p.loadAddr = next) : Chained base (ps ++ [p]) (sizeAdd next p.size) := by
  induction ps generalizing base with
  | nil =>
    obtain rfl : base = next := h
    exact ⟨hp, rfl⟩
  | cons q ps ih => exact ⟨h.1, ih h.2⟩

/-- If there is room for all slots, they are behind each other. -/
lemma Chained.pairwise {ps : List Placement} {base next : ℕ} (h : Chained base ps next)
    (hroom : base + slotsTotal ps < 2 ^ 64) : (∀ p ∈ ps, base ≤ p.loadAddr) ∧
      ps.Pairwise fun p q => p.loadAddr + p.size ≤ q.loadAddr := by
  induction ps generalizing base with
  | nil => exact ⟨fun p hp => absurd hp List.not_mem_nil, .nil⟩
  | cons p ps ih =>
    obtain ⟨hp, hps⟩ := h
    rw [slotsTotal, List.map_cons, List.sum_cons] at hroom
    change base + (p.size + slotsTotal ps) < 2 ^ 64 at hroom
    rw [sizeAdd_of_lt (by omega)] at hps
    obtain ⟨hle, hpairs⟩ := ih hps (by omega)
    refine ⟨fun q hq => ?_, List.pairwise_cons.mpr ⟨fun q hq => ?_, hpairs⟩⟩
    · rcases List.mem_cons.mp hq with rfl | hq
      · exact hp.ge
      · exact (Nat.le_add_right _ _).trans (hle q hq)
    · rw [hp]
      exact hle q hq

section Runs

variable {k : Kernel} {t : Table} {path : CString}

/-- A function that places dylibs as `image_load_dependency` does. -/
def Places (load : ℕ → CString → Loader ℕ) : Prop :=
  ∀ (t : Table) (parent : ℕ) (path : CString), Placed t →
    Ends (load parent path) t (fun _ t' => Placed t') (fun _ _ => True)

/-- The invariant is about placements. -/
lemma Placed.congr {t' : Table} (h : Placed t) (hplacements : t'.placements = t.placements)
    (hbase : t'.nextDylibBase = t.nextDylibBase) : Placed t' := by
  obtain ⟨hchained, hfits, hranges⟩ := h
  exact ⟨by rwa [hplacements, hbase], by rwa [hbase], by rwa [hplacements]⟩

/-- Looking at an image. -/
lemma placed_imageAt (h : Placed t) (i : ℕ) :
    Ends (imageAt i) t (fun _ t' => Placed t') (fun _ _ => True) :=
  Ends.bind (Ends.get (Ends.pure h))

/-- A change of an image. -/
lemma placed_modifyImage (h : Placed t) (i : ℕ) (f : Image → Image) :
    Ends (modifyImage i f) t (fun _ t' => Placed t') (fun _ _ => True) :=
  Ends.modify (h.congr rfl rfl)

/-- Parsing a dependency. -/
lemma placed_parseDylib {load : ℕ → CString → Loader ℕ} (hload : Places load) (h : Placed t)
    (i : ℕ) : Ends (parseDylib load i path) t (fun _ t' => Placed t') (fun _ _ => True) := by
  refine Ends.bind ((placed_imageAt h i).mono ?_ fun _ _ h => h)
  intro im t h
  split_ifs
  · exact Ends.throw trivial
  · refine Ends.bind ((hload t i path h).mono ?_ fun _ _ h => h)
    exact fun dep t h => placed_modifyImage h i _

/-- Parsing a load command. -/
lemma placed_parseCommand {load : ℕ → CString → Loader ℕ} (hload : Places load) (h : Placed t)
    (i : ℕ) (cmd : LoadCommand) :
    Ends (parseCommand load i cmd) t (fun _ t' => Placed t') (fun _ _ => True) := by
  cases cmd with
  | segment sc =>
    refine Ends.bind ((placed_imageAt h i).mono ?_ fun _ _ h => h)
    intro im t h
    split_ifs
    · exact Ends.throw trivial
    · exact placed_modifyImage h i _
  | dyldInfo rebase bind weakBind lazyBind exports => exact placed_modifyImage h i _
  | loadDylib path => exact placed_parseDylib hload h i
  | loadWeakDylib path => exact placed_parseDylib hload h i
  | other => exact Ends.pure h

/-- Parsing an image. -/
lemma placed_imageParseLoaded {load : ℕ → CString → Loader ℕ} (hload : Places load) (h : Placed t)
    (i mh slide : ℕ) (cmds : List LoadCommand) :
    Ends (imageParseLoaded load i mh slide cmds) t (fun _ t' => Placed t') (fun _ _ => True) := by
  refine Ends.bind ((placed_modifyImage h i _).mono ?_ fun _ _ h => h)
  intro _ t h
  induction cmds generalizing t with
  | nil => exact Ends.pure h
  | cons cmd cmds ih =>
    refine Ends.bind ((placed_parseCommand hload h i cmd).mono ?_ fun _ _ h => h)
    exact fun _ t h => ih t h

/-- The ranges that are mapped. -/
lemma placed_mapSegments (slide : ℕ) (cmds : List LoadCommand) :
    Ends (mapSegments k path slide cmds) t
      (fun ranges t' => t' = t ∧ ranges = segmentRanges slide cmds) (fun _ _ => True) := by
  induction cmds with
  | nil => exact Ends.pure ⟨rfl, rfl⟩
  | cons cmd cmds ih =>
    cases cmd with
    | segment sc =>
      unfold mapSegments
      dsimp only
      by_cases hsize : 0 < sc.segment.vmsize
      · have hranges : segmentRanges slide (.segment sc :: cmds) =
            (sizeAdd sc.segment.vmaddr slide, sc.segment.vmsize) :: segmentRanges slide cmds := by
          simp only [segmentRanges, List.filterMap_cons, if_pos hsize]
        rw [if_pos hsize]
        split
        · exact Ends.throw trivial
        · split
          · exact Ends.throw trivial
          · refine Ends.bind (ih.mono ?_ fun _ _ h => h)
            rintro ranges t' ⟨rfl, rfl⟩
            exact Ends.pure ⟨rfl, hranges.symm⟩
      · have hranges : segmentRanges slide (.segment sc :: cmds) = segmentRanges slide cmds := by
          simp only [segmentRanges, List.filterMap_cons, if_neg hsize]
        rw [if_neg hsize, hranges]
        exact ih
    | _ => exact ih

/-- Mapping an image. -/
lemma placed_mapImage (h : Placed t) (cmds : List LoadCommand) :
    Ends (mapImage k path cmds) t (fun _ t' => Placed t') (fun _ _ => True) := by
  unfold mapImage
  dsimp only
  split_ifs
  · exact Ends.throw trivial
  · refine Ends.bind (Ends.get (Ends.bind (Ends.modify (Ends.bind ?_))))
    refine (placed_mapSegments _ cmds).mono ?_ fun _ _ h => h
    rintro ranges t' ⟨rfl, rfl⟩
    refine Ends.bind (Ends.modify (Ends.pure ⟨h.chained.concat rfl, Nat.mod_lt _ (by decide), ?_⟩))
    intro p hp
    rcases List.mem_append.mp hp with hp | hp
    · exact h.ranges p hp
    · obtain rfl := List.mem_singleton.mp hp
      exact ⟨h.fits, rfl⟩

/-- Loading a dependency. -/
lemma places_imageLoadDependency (rounds : ℕ) : Places (imageLoadDependency k rounds) := by
  induction rounds with
  | zero => exact fun t parent path h => Ends.throw trivial
  | succ rounds ih =>
    intro t parent path h
    refine Ends.bind (Ends.modify (Ends.bind (Ends.get ?_)))
    have hnoted : Placed (t.noted parent path) := h.congr rfl rfl
    split
    · exact Ends.pure hnoted
    · split_ifs
      · exact Ends.throw trivial
      · refine Ends.bind (Ends.modify (Ends.bind (ends_openImage.mono ?_ fun _ _ _ => trivial)))
        rintro cmds t' ⟨rfl, -⟩
        have hadded : Placed ((t.noted parent path).added
            ⟨.zeroed path, some path, (k.file path).cmds⟩) := hnoted.congr rfl rfl
        refine Ends.bind ((placed_mapImage hadded cmds).mono ?_ fun _ _ h => h)
        rintro ⟨mh, slide⟩ t₃ h₃
        refine Ends.bind ((placed_imageParseLoaded ih h₃ _ mh slide cmds).mono ?_ fun _ _ h => h)
        exact fun _ _ h => Ends.pure h

/-- Loading an executable. -/
lemma placed_loadMain {argv0 : Option CString} {mainMh : ℕ} {cmds : List LoadCommand}
    {u : Unit} (h : loadMain k argv0 mainMh cmds Table.empty = .ok u t) : Placed t := by
  have hends : Ends (loadMain k argv0 mainMh cmds) Table.empty (fun _ t => Placed t)
      (fun _ _ => True) := by
    have hmain : Placed (Table.empty.added
        ⟨.zeroed (argv0.getD (.ofBytes (ascii "(main)"))), none, cmds⟩) :=
      ⟨rfl, show 0x210000000 < 2 ^ 64 by decide, fun p hp => absurd hp List.not_mem_nil⟩
    refine Ends.bind (Ends.modify ?_)
    cases findPreferredBase cmds none with
    | none => exact Ends.throw trivial
    | some preferred =>
      exact placed_imageParseLoaded (places_imageLoadDependency _) hmain _ _ _ _
  exact hends.ok h

end Runs

/-! ## Which dylibs keep to their slots -/

/-- The address of a segment with a slide, from its distance to the segment with the header. -/
lemma sizeAdd_slide {v lo base : ℕ} (hv : v < 2 ^ 64) (hlo : lo < 2 ^ 64) (hbase : base < 2 ^ 64) :
    sizeAdd v (sizeSub base lo) = sizeAdd base (sizeSub v lo) := by
  unfold sizeAdd sizeSub
  omega

/-- The address of the segment with the header is one. -/
lemma headerAddr_lt (cmds : List LoadCommand) : headerAddr cmds < 2 ^ 64 := by
  have hpass : ∀ (cmds : List LoadCommand) (lo hi : ℕ), lo < 2 ^ 64 →
      (firstPass cmds lo hi).1 < 2 ^ 64 := by
    intro cmds
    induction cmds with
    | nil => exact fun lo hi h => h
    | cons cmd cmds ih =>
      intro lo hi h
      cases cmd with
      | segment sc =>
        refine ih _ _ ?_
        split_ifs
        · exact sc.vmaddr.toNat_lt
        · exact h
      | _ => exact ih lo hi h
  exact hpass cmds _ 0 (by decide)

/-- The mapped ranges are those of the segments. -/
lemma mem_segmentRanges {slide : ℕ} {cmds : List LoadCommand} {r : ℕ × ℕ} :
    r ∈ segmentRanges slide cmds ↔ ∃ sc, .segment sc ∈ cmds ∧ 0 < sc.segment.vmsize ∧
      r = (sizeAdd sc.segment.vmaddr slide, sc.segment.vmsize) := by
  rw [segmentRanges, List.mem_filterMap]
  constructor
  · rintro ⟨cmd, hcmd, hr⟩
    cases cmd with
    | segment sc =>
      dsimp only at hr
      split_ifs at hr with hsize
      exact ⟨sc, hcmd, hsize, (Option.some.inj hr).symm⟩
    | _ => cases hr
  · rintro ⟨sc, hsc, hsize, rfl⟩
    exact ⟨.segment sc, hsc, if_pos hsize⟩

/-- **A dylib keeps to its slots exactly if its segments fit.** -/
lemma Placed.inside_iff {t : Table} (h : Placed t) {p : Placement} (hp : p ∈ t.placements) :
    p.Inside ↔ p.Fits := by
  obtain ⟨hbase, hranges⟩ := h.ranges p hp
  have hsegment : ∀ sc : SegmentCommand,
      (p.loadAddr ≤ sizeAdd sc.segment.vmaddr (sizeSub p.loadAddr (headerAddr p.cmds)) ∧
        sizeAdd sc.segment.vmaddr (sizeSub p.loadAddr (headerAddr p.cmds)) + sc.segment.vmsize ≤
          p.loadAddr + p.size) ↔
        p.offset sc.segment + sc.segment.vmsize ≤ p.size ∧
          p.loadAddr + p.offset sc.segment < 2 ^ 64 := by
    intro sc
    have hv : sc.segment.vmaddr < 2 ^ 64 := sc.vmaddr.toNat_lt
    have hoff : sizeSub sc.segment.vmaddr (headerAddr p.cmds) < 2 ^ 64 := Nat.mod_lt _ (by decide)
    rw [sizeAdd_slide hv (headerAddr_lt p.cmds) hbase, Placement.offset]
    by_cases hcarry : p.loadAddr + sizeSub sc.segment.vmaddr (headerAddr p.cmds) < 2 ^ 64
    · rw [sizeAdd_of_lt hcarry]
      omega
    · have hwrap : sizeAdd p.loadAddr (sizeSub sc.segment.vmaddr (headerAddr p.cmds)) =
          p.loadAddr + sizeSub sc.segment.vmaddr (headerAddr p.cmds) - 2 ^ 64 := by
        rw [sizeAdd, Nat.mod_eq_sub_mod (by omega), Nat.mod_eq_of_lt (by omega)]
      rw [hwrap]
      omega
  constructor
  · intro hinside sc hsc hsize
    refine (hsegment sc).mp (hinside (_, _) ?_)
    rw [hranges]
    exact mem_segmentRanges.2 ⟨sc, hsc, hsize, rfl⟩
  · intro hfits r hr
    rw [hranges] at hr
    obtain ⟨sc, hsc, hsize, rfl⟩ := mem_segmentRanges.1 hr
    exact (hsegment sc).mpr (hfits sc hsc hsize)

/-- The ranges of a dylib whose segments fit. -/
lemma Placed.mem_ranges {t : Table} (h : Placed t) {p : Placement} (hp : p ∈ t.placements)
    (hfits : p.Fits) {r : ℕ × ℕ} : r ∈ p.ranges ↔ ∃ sc, .segment sc ∈ p.cmds ∧
      0 < sc.segment.vmsize ∧ r = (p.loadAddr + p.offset sc.segment, sc.segment.vmsize) := by
  obtain ⟨hbase, hranges⟩ := h.ranges p hp
  rw [hranges, mem_segmentRanges]
  refine exists_congr fun sc => and_congr_right fun hsc => and_congr_right fun hsize => ?_
  have hv : sc.segment.vmaddr < 2 ^ 64 := sc.vmaddr.toNat_lt
  have hroom := (hfits sc hsc hsize).2
  rw [Placement.offset] at hroom ⊢
  rw [sizeAdd_slide hv (headerAddr_lt p.cmds) hbase, sizeAdd_of_lt hroom]

/-- **Dylibs whose segments fit do not overlap** exactly if their segments do not. -/
lemma Placed.apart_iff {t : Table} (h : Placed t) {p q : Placement} (hp : p ∈ t.placements)
    (hq : q ∈ t.placements) (hfits : p.Fits) (hfits' : q.Fits) : p.Apart q ↔ p.Clear q := by
  constructor
  · intro hapart sc hsc hsize sc' hsc' hsize'
    exact hapart _ ((h.mem_ranges hp hfits).mpr ⟨sc, hsc, hsize, rfl⟩)
      _ ((h.mem_ranges hq hfits').mpr ⟨sc', hsc', hsize', rfl⟩)
  · intro hclear r hr s hs
    obtain ⟨sc, hsc, hsize, rfl⟩ := (h.mem_ranges hp hfits).mp hr
    obtain ⟨sc', hsc', hsize', rfl⟩ := (h.mem_ranges hq hfits').mp hs
    exact hclear sc hsc hsize sc' hsc' hsize'

/-- Dylibs that keep to slots behind each other do not overlap. -/
lemma Placement.Inside.apart {p q : Placement} (hp : p.Inside) (hq : q.Inside)
    (h : p.loadAddr + p.size ≤ q.loadAddr) : p.Apart q := by
  intro r hr s hs
  have hend := (hp r hr).2
  have hstart := (hq s hs).1
  omega

/-- **All dylibs keep to their slots** exactly if all of their segments fit, as long as the slots
together do not reach the end of the address space; if they do, the addresses start again from zero,
and no segment of one dylib may be put where one of another is.

**Proof sketch.** The address of a segment is the start of the slots and its distance from the
segment with the header, unless that carries out; so it is inside if there is room. Slots are behind
each other as long as their addresses do not start again. -/
theorem keepsSlots_iff {k : Kernel} {argv0 : Option CString} {mainMh : ℕ}
    {cmds : List LoadCommand} {u : Unit} {t : Table}
    (h : loadMain k argv0 mainMh cmds Table.empty = .ok u t) :
    KeepsSlots t ↔ (∀ p ∈ t.placements, p.Fits) ∧
      (2 ^ 64 ≤ Table.empty.nextDylibBase + slotsTotal t.placements →
        t.placements.Pairwise Placement.Clear) := by
  have hplaced := placed_loadMain h
  constructor
  · rintro ⟨hinside, hapart⟩
    have hfits : ∀ p ∈ t.placements, p.Fits := fun p hp =>
      (hplaced.inside_iff hp).mp (hinside p hp)
    exact ⟨hfits, fun _ => hapart.imp_of_mem fun hp hq hpq =>
      (hplaced.apart_iff hp hq (hfits _ hp) (hfits _ hq)).mp hpq⟩
  · rintro ⟨hfits, hwrapped⟩
    have hinside : ∀ p ∈ t.placements, p.Inside := fun p hp =>
      (hplaced.inside_iff hp).mpr (hfits p hp)
    refine ⟨hinside, ?_⟩
    rcases Nat.lt_or_ge (Table.empty.nextDylibBase + slotsTotal t.placements) (2 ^ 64) with
      hroom | hwrap
    · refine (hplaced.chained.pairwise hroom).2.imp_of_mem ?_
      exact fun hp hq hle => (hinside _ hp).apart (hinside _ hq) hle
    · exact (hwrapped hwrap).imp_of_mem fun hp hq hclear =>
        (hplaced.apart_iff hp hq (hfits _ hp) (hfits _ hq)).mpr hclear

/-! ## Two pairs of dylibs -/

/-- A kernel with two dylibs of one segment that fills a slot and of two segments. -/
def pairOfDylibs (first second : UInt64) : Kernel where
  file path :=
    if path = .ofBytes (ascii "/a") then .machO [.segment ⟨0, 0x10000000, 0, 4096, []⟩]
    else .machO [headerSegment first, .segment ⟨second, 4096, 4096, 4096, []⟩]
  mmap _ _ := true
  hasBytes _ _ _ := true

/-- An executable linked with both. -/
def pairExecutable : List LoadCommand :=
  [headerSegment 0x100000000, .loadDylib (.ofBytes (ascii "/a")), .loadDylib (.ofBytes (ascii "/b"))]

/-- With the data behind the header, both keep to their slots. -/
theorem keepsSlots_iff_pair : ∃ t,
    loadMain (pairOfDylibs 0 0x1000) none 0x100000000 pairExecutable Table.empty = .ok () t ∧
      t.placements.length = 2 ∧ KeepsSlots t := by
  have hrun : succeeds (loadMain (pairOfDylibs 0 0x1000) none 0x100000000 pairExecutable)
      Table.empty (fun _ t => t.placements.length = 2 ∧ (∀ p ∈ t.placements, p.Fits) ∧
        Table.empty.nextDylibBase + slotsTotal t.placements < 2 ^ 64) = true := by
    decide +kernel
  obtain ⟨⟨⟩, t, hrun, htest⟩ := succeeds_iff.mp hrun
  obtain ⟨hlength, hfits, hroom⟩ := of_decide_eq_true htest
  exact ⟨t, hrun, hlength, (keepsSlots_iff hrun).mpr ⟨hfits, fun hwrap => by omega⟩⟩

/-- **With the data in front of the header, the second dylib is mapped over the first.** -/
theorem not_keepsSlots_below : ∃ t,
    loadMain (pairOfDylibs 0x1000 0) none 0x100000000 pairExecutable Table.empty = .ok () t ∧
      t.placements.map Placement.ranges = [[(0x210000000, 0x10000000)],
        [(0x220000000, 4096), (0x21FFFF000, 4096)]] ∧ ¬KeepsSlots t := by
  have hrun : succeeds (loadMain (pairOfDylibs 0x1000 0) none 0x100000000 pairExecutable)
      Table.empty (fun _ t => t.placements.map Placement.ranges = [[(0x210000000, 0x10000000)],
        [(0x220000000, 4096), (0x21FFFF000, 4096)]] ∧ ¬∀ p ∈ t.placements, p.Inside) = true := by
    decide +kernel
  obtain ⟨⟨⟩, t, hrun, htest⟩ := succeeds_iff.mp hrun
  obtain ⟨hranges, hinside⟩ := of_decide_eq_true htest
  exact ⟨t, hrun, hranges, fun hkeeps => hinside hkeeps.1⟩

end Asteros.Dyld
