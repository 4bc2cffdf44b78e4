import Asteros.Launchd.Supervision
import Asteros.Lib.StableSort
import Asteros.Libc.Ascii
import Mathlib.Data.Fintype.EquivFin

set_option autoImplicit false

/-!
# Labels and the capacity of the table

The calls that `launchctl` makes, each as a whole, as it holds the lock of the table from the first
look at the table to the last; and the load of all daemons at boot, which does not look at the labels.
An entry is never free again, so the capacity is that of all entries that were ever loaded.

## Main definitions

* `bootTable` — the table after boot.
* `lcLoad`, `lcUnload`, `lcStart`, `lcStop` — the calls.
* `Loadable` — a table as it should be.

## Main results

* `loadable_iff` — the runs in which every table is as it should be.
-/

namespace Asteros.Launchd.Labels

open Daemons Supervision Libc StableSort

/-! ## Boot -/

/-- A name that ends in `.plist`. -/
def isPlist (name : CString) : Bool :=
  7 ≤ name.strlen && name.bytes.drop (name.strlen - 6) == ascii ".plist"

/-- The names that `load_all_daemons` loads, in order: `names` has room for so many as the table has,
and is sorted by `qsort` with `cmp_str`. Without a directory there are none. -/
def daemonNames : Option (List CString) → List CString
  | none => []
  | some entries =>
    insertionSort (fun a b => decide (b.bytes < a.bytes)) ((entries.filter isPlist).take maxDaemons)

/-- The configurations that can be read, for what `plist_parse_daemon` makes of each name. -/
def bootConfigs (parse : CString → Option DaemonConfig) (directory : Option (List CString)) :
    List DaemonConfig :=
  (daemonNames directory).filterMap parse

/-- The table after `load_all_daemons`. What the entries are that are not in use does not matter. -/
def bootTable (unused : ℕ → Daemon) (parse : CString → Option DaemonConfig)
    (directory : Option (List CString)) : Table :=
  loadAllDaemons ⟨unused, 0⟩ (bootConfigs parse directory)

/-! ## The calls -/

/-- `spawn_daemon`, with the pid that `fork` returns if it does not fail. -/
def spawn (t : Table) (i : ℕ) : Option ℕ → Table
  | none => t
  | some pid => t.setPid i pid

/-- `lc_load`, for what `plist_parse_daemon` makes of the path. -/
def lcLoad (t : Table) (parsed : Option DaemonConfig) (fork : Option ℕ) : ℤ × Table :=
  match parsed with
  | none => (-1, t)
  | some cfg =>
    if (t.findByLabel cfg.label).isSome then (-2, t)
    else if t.ndaemons ≥ maxDaemons then (-3, t)
    else if cfg.runAtLoad then (0, spawn (t.append cfg) t.ndaemons fork)
    else (0, t.append cfg)

/-- `lc_unload`. -/
def lcUnload (t : Table) (label : String) : ℤ × Table :=
  match t.findByLabel label with
  | none => (-1, t)
  | some i => (0, t.setUnloaded i)

/-- `lc_start`. -/
def lcStart (t : Table) (label : String) (fork : Option ℕ) : ℤ × Table :=
  match t.findByLabel label with
  | none => (-1, t)
  | some i => if (t.daemons i).pid > 0 then (-2, t) else (0, spawn t i fork)

/-- `lc_stop`, which only sends a signal. -/
def lcStop (t : Table) (label : String) : ℤ × Table :=
  match t.findByLabel label with
  | none => (-1, t)
  | some i => if (t.daemons i).pid ≤ 0 then (-2, t) else (0, t)

/-- A call. -/
inductive Call where
  | load (parsed : Option DaemonConfig) (fork : Option ℕ)
  | unload (label : String)
  | start (label : String) (fork : Option ℕ)
  | stop (label : String)

/-- The table after a call. -/
def call (t : Table) : Call → Table
  | .load parsed fork => (lcLoad t parsed fork).2
  | .unload label => (lcUnload t label).2
  | .start label fork => (lcStart t label fork).2
  | .stop label => (lcStop t label).2

/-- The table after one call after the other. -/
def callAll (t : Table) (calls : List Call) : Table := calls.foldl call t

/-! ## Tables as they should be -/

/-- The entry is in use and not unloaded. -/
def Live (t : Table) (i : ℕ) : Prop := i < t.ndaemons ∧ (t.daemons i).unloaded = false

instance (t : Table) (i : ℕ) : Decidable (Live t i) := inferInstanceAs (Decidable (_ ∧ _))

/-- How many entries are not unloaded. -/
def liveCount (t : Table) : ℕ := ((List.range t.ndaemons).filter (Live t ·)).length

/-- The labels of the entries that are not unloaded are distinct. -/
def Distinct (t : Table) : Prop :=
  ∀ i j, Live t i → Live t j → (t.daemons i).cfg.label = (t.daemons j).cfg.label → i = j

/-- A table as it should be: the labels are distinct, a configuration whose label no entry has can be
loaded as long as fewer entries than there is room for are not unloaded, and a load that fails leaves
the table as it was. -/
structure Loadable (t : Table) : Prop where
  /-- The labels are distinct. -/
  distinct : Distinct t
  /-- A label that no entry has can be loaded. -/
  loads : ∀ cfg fork, (∀ i, Live t i → (t.daemons i).cfg.label ≠ cfg.label) →
    liveCount t < maxDaemons → (lcLoad t (some cfg) fork).1 = 0
  /-- A load that fails changes nothing. -/
  unchanged : ∀ parsed fork, (lcLoad t parsed fork).1 ≠ 0 → (lcLoad t parsed fork).2 = t

/-- There is room for another entry, or no entry is unloaded. -/
def HasRoom (t : Table) : Prop :=
  t.ndaemons < maxDaemons ∨ ∀ i < t.ndaemons, (t.daemons i).unloaded = false

variable {t : Table} {cfg : DaemonConfig} {i j : ℕ} {label : String} {fork : Option ℕ}

/-! ## What a call does -/

/-- Spawning changes no label and no mark. -/
@[simp] lemma spawn_ndaemons : (spawn t i fork).ndaemons = t.ndaemons := by
  cases fork <;> rfl

/-- Spawning changes no configuration. -/
@[simp] lemma spawn_cfg (j : ℕ) : ((spawn t i fork).daemons j).cfg = (t.daemons j).cfg := by
  cases fork with
  | none => rfl
  | some pid => exact Table.setPid_cfg j

/-- Spawning changes no mark. -/
@[simp] lemma spawn_unloaded (j : ℕ) :
    ((spawn t i fork).daemons j).unloaded = (t.daemons j).unloaded := by
  cases fork with
  | none => rfl
  | some pid => exact Table.setPid_unloaded j

/-- The search finds nothing exactly if no entry that is not unloaded has the label. -/
lemma findByLabel_eq_none_iff :
    t.findByLabel label = none ↔ ∀ i, Live t i → (t.daemons i).cfg.label ≠ label := by
  simp only [Table.findByLabel, List.find?_eq_none, List.mem_range, Bool.and_eq_true,
    Bool.not_eq_true', beq_iff_eq, not_and, Live, and_imp, ne_eq]

/-- The calls leave the table as it is, change a pid, mark an entry, or add one with a label that no
entry has. -/
lemma call_cases (t : Table) (c : Call) :
    (∃ i fork, call t c = spawn t i fork) ∨ (∃ i, call t c = t.setUnloaded i) ∨
    ∃ cfg fork, t.findByLabel cfg.label = none ∧ t.ndaemons < maxDaemons ∧
      call t c = spawn (t.append cfg) t.ndaemons fork := by
  have hsame : ∃ i fork, t = spawn t i fork := ⟨0, none, rfl⟩
  cases c with
  | load parsed fork =>
    cases parsed with
    | none => exact .inl hsame
    | some cfg =>
      unfold call lcLoad
      dsimp only
      split_ifs with hlabel hfull hrun
      · exact .inl hsame
      · exact .inl hsame
      · exact .inr (.inr ⟨cfg, fork, by simpa using hlabel, by omega, rfl⟩)
      · exact .inr (.inr ⟨cfg, none, by simpa using hlabel, by omega, rfl⟩)
  | unload label =>
    cases hfind : t.findByLabel label with
    | none =>
      simp only [call, lcUnload, hfind]
      exact .inl hsame
    | some i =>
      simp only [call, lcUnload, hfind]
      exact .inr (.inl ⟨i, rfl⟩)
  | start label fork =>
    cases hfind : t.findByLabel label with
    | none =>
      simp only [call, lcStart, hfind]
      exact .inl hsame
    | some i =>
      simp only [call, lcStart, hfind]
      split_ifs
      · exact .inl hsame
      · exact .inl ⟨i, fork, rfl⟩
  | stop label =>
    cases hfind : t.findByLabel label with
    | none =>
      simp only [call, lcStop, hfind]
      exact .inl hsame
    | some i =>
      simp only [call, lcStop, hfind]
      split_ifs <;> exact .inl hsame

/-! ## Distinct labels -/

/-- Spawning keeps the labels distinct. -/
lemma Distinct.spawn (h : Distinct t) : Distinct (spawn t i fork) := by
  intro j k hj hk heq
  simp only [Live, spawn_ndaemons, spawn_unloaded] at hj hk
  simp only [spawn_cfg] at heq
  exact h j k hj hk heq

/-- Marking an entry keeps the labels distinct. -/
lemma Distinct.setUnloaded (h : Distinct t) : Distinct (t.setUnloaded i) := by
  have hlive : ∀ j, Live (t.setUnloaded i) j → j ≠ i ∧ Live t j := by
    intro j hj
    have hne : j ≠ i := by
      rintro rfl
      simp [Live] at hj
    refine ⟨hne, hj.1, ?_⟩
    rw [← Table.setUnloaded_of_ne hne]
    exact hj.2
  intro j k hj hk heq
  obtain ⟨hji, hj⟩ := hlive j hj
  obtain ⟨hki, hk⟩ := hlive k hk
  rw [Table.setUnloaded_of_ne hji, Table.setUnloaded_of_ne hki] at heq
  exact h j k hj hk heq

/-- Adding an entry with a label that no entry has keeps the labels distinct. -/
lemma Distinct.append (h : Distinct t) (hlabel : t.findByLabel cfg.label = none) :
    Distinct (t.append cfg) := by
  rw [findByLabel_eq_none_iff] at hlabel
  have hlive : ∀ j, Live (t.append cfg) j →
      (j = t.ndaemons ∧ ((t.append cfg).daemons j).cfg.label = cfg.label) ∨
      (Live t j ∧ ((t.append cfg).daemons j).cfg.label = (t.daemons j).cfg.label) := by
    rintro j ⟨hlt, hu⟩
    rw [Table.append_ndaemons] at hlt
    obtain hlt | rfl := Nat.lt_succ_iff_lt_or_eq.mp hlt
    · rw [Table.append_of_ne cfg hlt.ne] at hu ⊢
      exact .inr ⟨⟨hlt, hu⟩, rfl⟩
    · exact .inl ⟨rfl, by rw [Table.append_self]⟩
  intro j k hj hk heq
  obtain ⟨hj, hjl⟩ | ⟨hj, hjl⟩ := hlive j hj <;> obtain ⟨hk, hkl⟩ | ⟨hk, hkl⟩ := hlive k hk
  · rw [hj, hk]
  · rw [hjl, hkl] at heq
    exact absurd heq.symm (hlabel k hk)
  · rw [hjl, hkl] at heq
    exact absurd heq (hlabel j hj)
  · rw [hjl, hkl] at heq
    exact h j k hj hk heq

/-- **A call keeps the labels distinct**, and the entries within the table. -/
lemma call_distinct (h : Distinct t) (hle : t.ndaemons ≤ maxDaemons) (c : Call) :
    Distinct (call t c) ∧ (call t c).ndaemons ≤ maxDaemons := by
  obtain ⟨i, fork, hcall⟩ | ⟨i, hcall⟩ | ⟨cfg, fork, hlabel, hlt, hcall⟩ := call_cases t c
  · rw [hcall, spawn_ndaemons]
    exact ⟨h.spawn, hle⟩
  · rw [hcall, Table.setUnloaded_ndaemons]
    exact ⟨h.setUnloaded, hle⟩
  · rw [hcall, spawn_ndaemons, Table.append_ndaemons]
    exact ⟨(h.append hlabel).spawn, hlt⟩

/-- So do all calls of a run. -/
lemma callAll_distinct (h : Distinct t) (hle : t.ndaemons ≤ maxDaemons) (calls : List Call) :
    Distinct (callAll t calls) ∧ (callAll t calls).ndaemons ≤ maxDaemons := by
  induction calls generalizing t with
  | nil => exact ⟨h, hle⟩
  | cons c calls ih =>
    obtain ⟨h', hle'⟩ := call_distinct h hle c
    exact ih h' hle'

/-! ## The table after boot -/

/-- As long as there is room, every configuration gets the next entry. -/
lemma loadAll_spec (cfgs : List DaemonConfig) (hle : t.ndaemons + cfgs.length ≤ maxDaemons) :
    (loadAllDaemons t cfgs).ndaemons = t.ndaemons + cfgs.length ∧
      ∀ k (hk : k < cfgs.length),
        (loadAllDaemons t cfgs).daemons (t.ndaemons + k) = ⟨cfgs[k], 0, false⟩ := by
  induction cfgs generalizing t with
  | nil => exact ⟨rfl, fun k hk => absurd hk (Nat.not_lt_zero k)⟩
  | cons cfg cfgs ih =>
    rw [List.length_cons] at hle
    have hroom : t.ndaemons < maxDaemons := by omega
    have hload : loadAllDaemons t (cfg :: cfgs) = loadAllDaemons (t.append cfg) cfgs := by
      rw [loadAllDaemons, List.foldl_cons, if_pos hroom]
      rfl
    obtain ⟨hn, hentry⟩ := ih (t := t.append cfg) (by rw [Table.append_ndaemons]; omega)
    rw [Table.append_ndaemons] at hn hentry
    rw [hload]
    refine ⟨by rw [List.length_cons]; omega, fun k hk => ?_⟩
    rw [List.length_cons] at hk
    cases k with
    | zero =>
      have hbehind := loadAll_of_lt (t := t.append cfg) cfgs (i := t.ndaemons)
        (by rw [Table.append_ndaemons]; omega)
      rw [Nat.add_zero, hbehind, Table.append_self, List.getElem_cons_zero]
    | succ k =>
      have hk' : k < cfgs.length := by omega
      rw [List.getElem_cons_succ, ← hentry k hk']
      congr 1
      omega

/-- There are no more configurations than the table has room for. -/
lemma length_bootConfigs_le (parse : CString → Option DaemonConfig)
    (directory : Option (List CString)) : (bootConfigs parse directory).length ≤ maxDaemons := by
  refine (List.length_filterMap_le _ _).trans ?_
  cases directory with
  | none => exact Nat.zero_le _
  | some entries =>
    rw [daemonNames, length_insertionSort]
    exact List.length_take_le _ _

section Boot

variable (unused : ℕ → Daemon) (parse : CString → Option DaemonConfig)
  (directory : Option (List CString))

/-- Every configuration has an entry. -/
lemma bootTable_ndaemons :
    (bootTable unused parse directory).ndaemons = (bootConfigs parse directory).length := by
  have h := loadAll_spec (t := ⟨unused, 0⟩) (bootConfigs parse directory)
    (by simpa using length_bootConfigs_le parse directory)
  simpa [bootTable] using h.1

/-- The entries are those of the configurations in order, and none is unloaded. -/
lemma bootTable_daemons (k : ℕ) (hk : k < (bootConfigs parse directory).length) :
    (bootTable unused parse directory).daemons k = ⟨(bootConfigs parse directory)[k], 0, false⟩ := by
  have h := loadAll_spec (t := ⟨unused, 0⟩) (bootConfigs parse directory)
    (by simpa using length_bootConfigs_le parse directory)
  simpa [bootTable] using h.2 k hk

/-- **The labels are distinct after boot exactly if those of the configurations are.** -/
lemma bootTable_distinct_iff :
    Distinct (bootTable unused parse directory) ↔
      ((bootConfigs parse directory).map (·.label)).Nodup := by
  have hlive : ∀ i, Live (bootTable unused parse directory) i ↔
      i < (bootConfigs parse directory).length := by
    intro i
    rw [Live, bootTable_ndaemons, and_iff_left_iff_imp]
    intro hi
    rw [bootTable_daemons unused parse directory i hi]
  rw [List.nodup_iff_injective_get]
  constructor
  · rintro h ⟨i, hi⟩ ⟨j, hj⟩ heq
    rw [List.length_map] at hi hj
    refine Fin.ext (h i j ((hlive i).mpr hi) ((hlive j).mpr hj) ?_)
    rw [bootTable_daemons _ _ _ i hi, bootTable_daemons _ _ _ j hj]
    simpa using heq
  · intro h i j hi hj heq
    rw [hlive] at hi hj
    rw [bootTable_daemons _ _ _ i hi, bootTable_daemons _ _ _ j hj] at heq
    have hfin := @h ⟨i, by simpa using hi⟩ ⟨j, by simpa using hj⟩ (by simpa using heq)
    exact Fin.mk.inj_iff.mp hfin

end Boot

/-! ## Room in the table -/

/-- There are no more entries that are not unloaded than entries. -/
lemma liveCount_lt (h : ∃ i < t.ndaemons, (t.daemons i).unloaded = true) :
    liveCount t < t.ndaemons := by
  obtain ⟨i, hi, hu⟩ := h
  have hlt : liveCount t < (List.range t.ndaemons).length := by
    refine List.length_filter_lt_length_iff_exists.mpr ⟨i, List.mem_range.mpr hi, ?_⟩
    simp [Live, hu]
  rwa [List.length_range] at hlt

/-- If no entry is unloaded they all count. -/
lemma liveCount_eq (h : ∀ i < t.ndaemons, (t.daemons i).unloaded = false) :
    liveCount t = t.ndaemons := by
  have hall : (List.range t.ndaemons).filter (Live t ·) = List.range t.ndaemons := by
    refine List.filter_eq_self.mpr fun i hi => ?_
    rw [List.mem_range] at hi
    simp [Live, hi, h i hi]
  rw [liveCount, hall, List.length_range]

/-- A label that no entry has. -/
lemma exists_label (t : Table) : ∃ label, ∀ i, Live t i → (t.daemons i).cfg.label ≠ label := by
  obtain ⟨label, hlabel⟩ := Infinite.exists_notMem_finset
    ((List.range t.ndaemons).map fun i => (t.daemons i).cfg.label).toFinset
  refine ⟨label, fun i hi heq => hlabel ?_⟩
  rw [List.mem_toFinset, List.mem_map]
  exact ⟨i, List.mem_range.mpr hi.1, heq⟩

/-- What a load of a label that no entry has returns. -/
lemma lcLoad_of_fresh (h : ∀ i, Live t i → (t.daemons i).cfg.label ≠ cfg.label) :
    (lcLoad t (some cfg) fork).1 = if t.ndaemons ≥ maxDaemons then -3 else 0 := by
  have hlabel := findByLabel_eq_none_iff.mpr h
  unfold lcLoad
  dsimp only
  rw [hlabel, Option.isSome_none, if_neg Bool.false_ne_true]
  split_ifs <;> rfl

/-- A load that fails leaves the table as it was. -/
lemma lcLoad_unchanged (parsed : Option DaemonConfig) (h : (lcLoad t parsed fork).1 ≠ 0) :
    (lcLoad t parsed fork).2 = t := by
  cases parsed with
  | none => rfl
  | some cfg =>
    unfold lcLoad at h ⊢
    dsimp only at h ⊢
    split_ifs at h ⊢ with hlabel hfull hrun
    · rfl
    · rfl
    · exact absurd rfl h
    · exact absurd rfl h

/-- **A table with distinct labels is as it should be exactly if there is room or nothing is
unloaded.**

**Proof sketch.** A load of a new label fails only if all entries are in use. If then one of them is
unloaded, fewer than all count, and the load of some new label should succeed. -/
lemma loadable_iff_hasRoom (h : Distinct t) (hle : t.ndaemons ≤ maxDaemons) :
    Loadable t ↔ HasRoom t := by
  constructor
  · intro hload
    by_contra hroom
    obtain ⟨hfull, hunloaded⟩ := not_or.mp hroom
    push Not at hunloaded
    obtain ⟨i, hi, hu⟩ := hunloaded
    obtain ⟨label, hlabel⟩ := exists_label t
    have hcount := liveCount_lt ⟨i, hi, by simpa using hu⟩
    have hzero := hload.loads ⟨label, false, false⟩ none hlabel (by omega)
    rw [lcLoad_of_fresh hlabel, if_pos (by omega)] at hzero
    exact absurd hzero (by decide)
  · intro hroom
    refine ⟨h, fun cfg fork hlabel hcount => ?_, fun parsed fork => lcLoad_unchanged parsed⟩
    rw [lcLoad_of_fresh hlabel, if_neg]
    rcases hroom with hlt | hall
    · omega
    · rw [liveCount_eq hall] at hcount
      omega

/-- **Every table of a run is as it should be exactly if the labels of the daemons loaded at boot are
distinct, and no table has an unloaded entry while there is no room for another.** -/
theorem loadable_iff (unused : ℕ → Daemon) (parse : CString → Option DaemonConfig)
    (directory : Option (List CString)) (calls : List Call) :
    (∀ k ≤ calls.length, Loadable (callAll (bootTable unused parse directory) (calls.take k))) ↔
      ((bootConfigs parse directory).map (·.label)).Nodup ∧
        ∀ k ≤ calls.length, HasRoom (callAll (bootTable unused parse directory) (calls.take k)) := by
  have hle : (bootTable unused parse directory).ndaemons ≤ maxDaemons := by
    rw [bootTable_ndaemons]
    exact length_bootConfigs_le parse directory
  constructor
  · intro h
    have hboot : Distinct (bootTable unused parse directory) := (h 0 (Nat.zero_le _)).distinct
    refine ⟨(bootTable_distinct_iff unused parse directory).mp hboot, fun k hk => ?_⟩
    obtain ⟨hd, hle'⟩ := callAll_distinct hboot hle (calls.take k)
    exact (loadable_iff_hasRoom hd hle').mp (h k hk)
  · rintro ⟨hnodup, hroom⟩ k hk
    have hboot := (bootTable_distinct_iff unused parse directory).mpr hnodup
    obtain ⟨hd, hle'⟩ := callAll_distinct hboot hle (calls.take k)
    exact (loadable_iff_hasRoom hd hle').mpr (hroom k hk)

/-! ## A daemon that is loaded and unloaded again and again -/

/-- A load of a daemon, and the unload of it. -/
def loadUnload : List Call :=
  [.load (some ⟨"com.example.job", false, false⟩) none, .unload "com.example.job"]

/-- One more time leaves one more entry, and all are unloaded. -/
lemma callAll_loadUnload (hlt : t.ndaemons < maxDaemons)
    (h : ∀ i < t.ndaemons, (t.daemons i).unloaded = true) :
    (callAll t loadUnload).ndaemons = t.ndaemons + 1 ∧
      ∀ i < t.ndaemons + 1, ((callAll t loadUnload).daemons i).unloaded = true := by
  have hnone : t.findByLabel "com.example.job" = none := by
    rw [findByLabel_eq_none_iff]
    rintro i ⟨hi, hu⟩
    simp [h i hi] at hu
  have hload : call t (.load (some ⟨"com.example.job", false, false⟩) none) =
      t.append ⟨"com.example.job", false, false⟩ := by
    simp [call, lcLoad, hnone, Nat.not_le.mpr hlt]
  have hfind : (t.append ⟨"com.example.job", false, false⟩).findByLabel "com.example.job" =
      some t.ndaemons := by
    rw [Table.findByLabel, List.find?_range_eq_some]
    refine ⟨by simp, by simp, fun i hi => ?_⟩
    rw [Table.append_of_ne _ hi.ne, h i hi]
    rfl
  have hcall : callAll t loadUnload =
      (t.append ⟨"com.example.job", false, false⟩).setUnloaded t.ndaemons := by
    simp only [callAll, loadUnload, List.foldl_cons, List.foldl_nil, hload]
    simp only [call, lcUnload, hfind]
  rw [hcall]
  refine ⟨rfl, fun i hi => ?_⟩
  obtain hi | rfl := Nat.lt_succ_iff_lt_or_eq.mp hi
  · rw [Table.setUnloaded_of_ne hi.ne, Table.append_of_ne _ hi.ne]
    exact h i hi
  · exact Table.setUnloaded_self

/-- As often as there is room, from a table without entries. -/
lemma callAll_loadUnload_repeat (ht : t.ndaemons = 0) (n : ℕ) (hn : n ≤ maxDaemons) :
    (callAll t (List.replicate n loadUnload).flatten).ndaemons = n ∧
      ∀ i < n, ((callAll t (List.replicate n loadUnload).flatten).daemons i).unloaded = true := by
  induction n with
  | zero => exact ⟨ht, fun i hi => absurd hi (Nat.not_lt_zero i)⟩
  | succ n ih =>
    obtain ⟨hcount, hall⟩ := ih (by omega)
    have hsplit : callAll t (List.replicate (n + 1) loadUnload).flatten =
        callAll (callAll t (List.replicate n loadUnload).flatten) loadUnload := by
      rw [List.replicate_succ', List.flatten_append, List.flatten_singleton, callAll,
        List.foldl_append]
      rfl
    have hmore := callAll_loadUnload (t := callAll t (List.replicate n loadUnload).flatten)
      (by omega) (by rwa [hcount])
    rw [hcount] at hmore
    rw [hsplit]
    exact hmore

/-- Without a directory of daemons, and after one daemon was loaded and unloaded 64 times, nothing is
loaded, and nothing can be loaded. -/
theorem not_loadable :
    ¬Loadable (callAll (bootTable (fun _ => ⟨⟨"", false, false⟩, 0, false⟩) (fun _ => none) none)
      (List.replicate 64 loadUnload).flatten) := by
  obtain ⟨hcount, hall⟩ := callAll_loadUnload_repeat
    (t := bootTable (fun _ => ⟨⟨"", false, false⟩, 0, false⟩) (fun _ => none) none) rfl 64 le_rfl
  intro h
  obtain ⟨hd, hle⟩ := callAll_distinct
    ((bootTable_distinct_iff (fun _ => ⟨⟨"", false, false⟩, 0, false⟩) (fun _ => none) none).mpr
      List.nodup_nil) (Nat.zero_le _) (List.replicate 64 loadUnload).flatten
  rcases (loadable_iff_hasRoom hd hle).mp h with hlt | hnone
  · rw [hcount] at hlt
    exact absurd hlt (by decide)
  · have hu := hnone 0 (by omega)
    rw [hall 0 (by omega)] at hu
    exact absurd hu (by decide)

end Asteros.Launchd.Labels
