import Asteros.Dyld.LoaderRuns
import Mathlib.Data.List.Nodup
import Mathlib.Data.List.Perm.Subperm

set_option autoImplicit false

/-!
# Every dylib once

An image is found again by the path in the table, which has room for 255 bytes, and the main
executable is there under the name it was started with. So whether every dylib is loaded once depends
on whether `find_loaded` recognises the paths it is asked for.

## Main definitions

* `Needed` — the paths that an executable needs, directly or through others.
* `LoadedOnce` — one image for each of them, and the dependencies are right.
* `Recognises` — a call finds the image of its path exactly if there is one.

## Main results

* `loadsOnce_iff` — when every dylib is loaded once.
-/

namespace Asteros.Dyld

open Asteros.Libc Outcome

/-- The executable with these load commands needs the dylib at a path. -/
inductive Needed (k : Kernel) (cmds : List LoadCommand) : CString → Prop
  | main {path : CString} (h : path ∈ dylibPaths cmds) : Needed k cmds path
  | dep {path path' : CString} (h : Needed k cmds path)
      (h' : path' ∈ dylibPaths (k.file path).cmds) : Needed k cmds path'

/-- The table has one image for the main executable and one for each dylib that is needed, and the
dependencies of an image are the images of the dylibs in its load commands. -/
structure LoadedOnce (k : Kernel) (cmds : List LoadCommand) (t : Table) : Prop where
  needed : ∀ path, Needed k cmds path ↔ ∃ e ∈ t.entries, e.file = some path
  nodup : (t.entries.map Entry.file).Nodup
  deps : ∀ e ∈ t.entries, ∀ (n : ℕ) (path : CString), (dylibPaths e.cmds)[n]? = some path →
    ∃ i e', e.image.deps[n]? = some i ∧ t.entries[i]? = some e' ∧ e'.file = some path

/-- `find_loaded` finds the image that has been loaded from the path, if there is one, and no image
otherwise. -/
def Recognises (c : Call) : Prop :=
  findLoaded c.entries c.path = c.entries.findIdx? fun e => e.file = some c.path

/-- That can be decided. -/
instance (c : Call) : Decidable (Recognises c) := inferInstanceAs (Decidable (_ = _))

section Once

variable {k : Kernel} {argv0 : Option CString} {cmds : List LoadCommand} {t : Table} {c : Call}

/-- An image at the time of a call is the same now. -/
lemma Sound.getElem?_before {main : KeptEntry} (h : Sound k main t) (hc : c ∈ t.calls) {x : ℕ}
    {e : Entry} (he : c.entries[x]? = some e) :
    ∃ e', t.entries[x]? = some e' ∧ e'.file = e.file ∧ e'.kept = e.kept := by
  have hkept : (c.entries.map Entry.kept)[x]? = some e.kept := by
    rw [List.getElem?_map, he]
    rfl
  have hkept' := getElem?_of_prefix (h.before c hc) hkept
  rw [List.getElem?_map, Option.map_eq_some_iff] at hkept'
  obtain ⟨e', he', heq⟩ := hkept'
  exact ⟨e', he', (Prod.ext_iff.mp (Prod.ext_iff.mp heq).2).1, heq⟩

/-- And an image that is there now was there before, if it is not behind. -/
lemma Sound.getElem?_now {main : KeptEntry} (h : Sound k main t) (hc : c ∈ t.calls) {x : ℕ}
    (hx : x < c.entries.length) {e : Entry} (he : t.entries[x]? = some e) :
    ∃ e', c.entries[x]? = some e' ∧ e'.file = e.file := by
  obtain ⟨e', he', hfile, -⟩ := h.getElem?_before hc (List.getElem?_eq_getElem hx)
  obtain rfl := Option.some.inj (he.symm.trans he')
  exact ⟨c.entries[x], List.getElem?_eq_getElem hx, hfile.symm⟩

/-- The load commands of an image are the ones of its file, or those of the main executable; and its
file is needed. -/
lemma Sound.needed (h : Sound k (mainEntry argv0 cmds) t) (x : ℕ) {e : Entry}
    (he : t.entries[x]? = some e) : e.file = none ∧ x = 0 ∧ e.cmds = cmds ∨
      ∃ path, e.file = some path ∧ Needed k cmds path ∧ e.cmds = (k.file path).cmds := by
  induction x using Nat.strong_induction_on generalizing e with
  | _ x ih =>
    cases x with
    | zero =>
      obtain ⟨e', he', hmain⟩ := h.first
      obtain rfl := Option.some.inj (he.symm.trans he')
      obtain ⟨-, hfile, hcmds⟩ := Prod.ext_iff.mp hmain |>.imp_right Prod.ext_iff.mp
      exact Or.inl ⟨hfile, rfl, hcmds⟩
    | succ i =>
      right
      obtain ⟨c, hc, hlen, -, hkept⟩ := h.registered i e he
      obtain ⟨-, hfile, hcmds⟩ := Prod.ext_iff.mp hkept |>.imp_right Prod.ext_iff.mp
      refine ⟨c.path, hfile, ?_, hcmds⟩
      obtain ⟨p, hp, hpath⟩ := h.parent c hc
      obtain ⟨p', hp', -, hkept'⟩ := h.getElem?_before hc hp
      have hcmds' : p'.cmds = p.cmds := (Prod.ext_iff.mp (Prod.ext_iff.mp hkept').2).2
      have hlt : c.parent < i + 1 := by
        rw [← hlen]
        exact (List.getElem?_eq_some_iff.mp hp).1
      rw [← hcmds'] at hpath
      rcases ih c.parent hlt hp' with ⟨-, -, hmain⟩ | ⟨q, -, hq, hfileq⟩
      · exact .main (hmain ▸ hpath)
      · exact .dep hq (hfileq ▸ hpath)

/-- A call is for a path that is needed. -/
lemma Sound.needed_path (h : Sound k (mainEntry argv0 cmds) t) (hc : c ∈ t.calls) :
    Needed k cmds c.path := by
  obtain ⟨p, hp, hpath⟩ := h.parent c hc
  obtain ⟨p', hp', -, hkept⟩ := h.getElem?_before hc hp
  have hcmds : p'.cmds = p.cmds := (Prod.ext_iff.mp (Prod.ext_iff.mp hkept).2).2
  rw [← hcmds] at hpath
  rcases h.needed c.parent hp' with ⟨-, -, hmain⟩ | ⟨q, -, hq, hfile⟩
  · exact .main (hmain ▸ hpath)
  · exact .dep hq (hfile ▸ hpath)

/-- The image of a file, by its place among the files. -/
lemma getElem?_file {t : Table} {x : ℕ} {f : Option CString}
    (h : (t.entries.map Entry.file)[x]? = some f) : ∃ e, t.entries[x]? = some e ∧ e.file = f := by
  rw [List.getElem?_map, Option.map_eq_some_iff] at h
  exact h

/-- If a call that recognises its path finds nothing, no image is from there. -/
lemma Recognises.not_mem (hrec : Recognises c) (hnone : findLoaded c.entries c.path = none)
    {e : Entry} (he : e ∈ c.entries) : e.file ≠ some c.path := by
  rw [hrec, List.findIdx?_eq_none_iff] at hnone
  intro hfile
  exact absurd (hnone e he) (by simp [hfile])

/-- **Where paths are recognised, no file is loaded twice.** -/
lemma Sound.nodup (h : Sound k (mainEntry argv0 cmds) t) (hrec : ∀ c ∈ t.calls, Recognises c) :
    (t.entries.map Entry.file).Nodup := by
  rw [List.Nodup, List.pairwise_iff_getElem]
  intro x y hx hy hxy heq
  rw [List.length_map] at hx hy
  rw [List.getElem_map, List.getElem_map] at heq
  obtain ⟨i, rfl⟩ : ∃ i, y = i + 1 := ⟨y - 1, by omega⟩
  obtain ⟨c, hc, hlen, hnone, hkept⟩ := h.registered i _ (List.getElem?_eq_getElem hy)
  have hfile : t.entries[i + 1].file = some c.path :=
    (Prod.ext_iff.mp (Prod.ext_iff.mp hkept).2).1
  obtain ⟨e', hmem, hsame⟩ := h.getElem?_now hc (by omega) (List.getElem?_eq_getElem hx)
  exact (hrec c hc).not_mem hnone (List.mem_of_getElem? hmem) (hsame.trans (heq.trans hfile))

/-- A call that finds an image and recognises its path has found one from there. -/
lemma Sound.file_of_answers {main : KeptEntry} (h : Sound k main t) (hc : c ∈ t.calls)
    (hrec : Recognises c) {i : ℕ} (ha : Answers t c i) :
    ∃ e, t.entries[i]? = some e ∧ e.file = some c.path := by
  rcases ha with hfind | ⟨-, -, he⟩
  · rw [hrec] at hfind
    obtain ⟨hi, hfile, -⟩ := List.findIdx?_eq_some_iff_getElem.mp hfind
    obtain ⟨e, he, hsame, -⟩ := h.getElem?_before hc (List.getElem?_eq_getElem hi)
    exact ⟨e, he, hsame.trans (of_decide_eq_true hfile)⟩
  · exact he

/-- **Where paths are recognised, every dylib is loaded once.** -/
lemma Loaded.loadedOnce (h : Loaded k (mainEntry argv0 cmds) t)
    (hrec : ∀ c ∈ t.calls, Recognises c) : LoadedOnce k cmds t := by
  have hdeps : ∀ e ∈ t.entries, ∀ (n : ℕ) (path : CString), (dylibPaths e.cmds)[n]? = some path →
      ∃ i e', e.image.deps[n]? = some i ∧ t.entries[i]? = some e' ∧ e'.file = some path := by
    intro e he n path hpath
    have hn : n < e.image.deps.length := by
      rw [h.parsed e he]
      exact (List.getElem?_eq_some_iff.mp hpath).1
    have hdep := List.getElem?_eq_getElem hn
    obtain ⟨x, hx⟩ := List.getElem?_of_mem he
    obtain ⟨c, hc, -, hpath', ha⟩ := h.sound.answered x e n _ hx hdep
    obtain rfl := Option.some.inj (hpath'.symm.trans hpath)
    obtain ⟨e', he', hfile⟩ := h.sound.file_of_answers hc (hrec c hc) ha
    exact ⟨_, e', hdep, he', hfile⟩
  refine ⟨fun path => ⟨fun hneeded => ?_, ?_⟩, h.sound.nodup hrec, hdeps⟩
  · have hfind : ∀ e ∈ t.entries, ∀ path ∈ dylibPaths e.cmds,
        ∃ e' ∈ t.entries, e'.file = some path := by
      intro e he path hpath
      obtain ⟨n, hn⟩ := List.getElem?_of_mem hpath
      obtain ⟨i, e', -, he', hfile⟩ := hdeps e he n path hn
      exact ⟨e', List.mem_of_getElem? he', hfile⟩
    induction hneeded with
    | main hpath =>
      obtain ⟨e, he, hmain⟩ := h.sound.first
      have hcmds : e.cmds = cmds := (Prod.ext_iff.mp (Prod.ext_iff.mp hmain).2).2
      exact hfind e (List.mem_of_getElem? he) _ (hcmds ▸ hpath)
    | @dep path path' _ hpath ih =>
      obtain ⟨e, he, hfile⟩ := ih
      obtain ⟨x, hx⟩ := List.getElem?_of_mem he
      rcases h.sound.needed x hx with ⟨hnone, -⟩ | ⟨q, hq, -, hcmds⟩
      · rw [hnone] at hfile
        cases hfile
      · obtain rfl := Option.some.inj (hq.symm.trans hfile)
        exact hfind e he _ (hcmds ▸ hpath)
  · rintro ⟨e, he, hfile⟩
    obtain ⟨x, hx⟩ := List.getElem?_of_mem he
    rcases h.sound.needed x hx with ⟨hnone, -⟩ | ⟨q, hq, hneeded, -⟩
    · rw [hnone] at hfile
      cases hfile
    · obtain rfl := Option.some.inj (hq.symm.trans hfile)
      exact hneeded

/-- **Where paths are recognised, a full table has all dylibs** if no more are needed. -/
lemma Sound.not_full (h : Sound k (mainEntry argv0 cmds) t) (hrec : ∀ c ∈ t.calls, Recognises c)
    {paths : List CString} (hpaths : ∀ path, Needed k cmds path → path ∈ paths)
    (hcount : paths.length < imageMax) (hc : c ∈ t.calls)
    (hnone : findLoaded c.entries c.path = none) : ¬imageMax ≤ c.entries.length := by
  intro hfull
  let new := (t.entries.map Entry.file).tail
  have hnodup : (some c.path :: new).Nodup := by
    refine List.nodup_cons.mpr ⟨fun hmem => ?_, (h.nodup hrec).sublist (List.tail_sublist _)⟩
    obtain ⟨e, he, hfile⟩ := List.mem_map.mp (List.mem_of_mem_tail hmem)
    obtain ⟨x, hx⟩ := List.getElem?_of_mem he
    have hlen := h.length
    have hlt : x < t.entries.length := (List.getElem?_eq_some_iff.mp hx).1
    obtain ⟨e', he', hsame⟩ := h.getElem?_now hc (by omega) hx
    exact (hrec c hc).not_mem hnone (List.mem_of_getElem? he') (hsame.trans hfile)
  have hsub : some c.path :: new ⊆ paths.map some := by
    intro f hf
    rcases List.mem_cons.mp hf with rfl | hf
    · exact List.mem_map_of_mem (hpaths _ (h.needed_path hc))
    · obtain ⟨x, hx⟩ := List.getElem?_of_mem hf
      rw [List.getElem?_tail] at hx
      obtain ⟨e, he, rfl⟩ := getElem?_file hx
      rcases h.needed (x + 1) he with ⟨-, hzero, -⟩ | ⟨q, hq, hneeded, -⟩
      · omega
      · rw [hq]
        exact List.mem_map_of_mem (hpaths _ hneeded)
  have hle := (hnodup.subperm hsub).length_le
  have hlen := (h.before c hc).length_le
  simp only [List.length_cons, new, List.length_tail, List.length_map] at hle hlen
  omega

/-- **A table with every dylib once** comes from calls that recognise their paths. -/
lemma Loaded.recognises (h : Loaded k (mainEntry argv0 cmds) t) (honce : LoadedOnce k cmds t)
    (hc : c ∈ t.calls) : Recognises c := by
  obtain ⟨e, n, i, he, hpath, hdep, ha⟩ := h.recorded c hc
  obtain ⟨i', e', hdep', he', hfile⟩ := honce.deps e (List.mem_of_getElem? he) n _ hpath
  obtain rfl := Option.some.inj (hdep.symm.trans hdep')
  have hlt := (List.getElem?_eq_some_iff.mp he').1
  -- no other image is from that file
  have hunique : ∀ x : ℕ, x ≠ i → ∀ e'', c.entries[x]? = some e'' → e''.file ≠ some c.path := by
    intro x hx e'' hmem heq
    obtain ⟨e₁, he₁, hsame, -⟩ := h.sound.getElem?_before hc hmem
    have hfile₁ : (t.entries.map Entry.file)[x]? = some (some c.path) := by
      rw [List.getElem?_map, he₁, Option.map_some, hsame, heq]
    have hfile' : (t.entries.map Entry.file)[i]? = some (some c.path) := by
      rw [List.getElem?_map, he', Option.map_some, hfile]
    obtain ⟨hx₁, hget₁⟩ := List.getElem?_eq_some_iff.mp hfile₁
    obtain ⟨hx', hget'⟩ := List.getElem?_eq_some_iff.mp hfile'
    exact hx (honce.nodup.getElem_inj_iff.mp (hget₁.trans hget'.symm))
  rcases ha with hfind | ⟨hnone, hlast, -⟩
  · rw [Recognises, hfind, eq_comm, List.findIdx?_eq_some_iff_getElem]
    obtain ⟨hi, -⟩ := List.findIdx?_eq_some_iff_getElem.mp hfind
    obtain ⟨e₁, he₁, hsame⟩ := h.sound.getElem?_now hc hi he'
    rw [List.getElem?_eq_getElem hi] at he₁
    refine ⟨hi, ?_, fun x hx => ?_⟩
    · rw [Option.some.inj he₁, hsame, hfile]
      exact decide_eq_true rfl
    · have hne := hunique x (by omega) _ (List.getElem?_eq_getElem (by omega))
      simpa using hne
  · rw [Recognises, hnone, eq_comm, List.findIdx?_eq_none_iff]
    intro e'' hmem
    obtain ⟨x, hx⟩ := List.getElem?_of_mem hmem
    have hne := hunique x (by have := (List.getElem?_eq_some_iff.mp hx).1; omega) e'' hx
    simpa using hne

end Once

/-- The table is not exhausted, and if the executable is loaded, every dylib is there once. -/
def LoadsOnce (k : Kernel) (argv0 : Option CString) (mainMh : ℕ) (cmds : List LoadCommand) : Prop :=
  match loadMain k argv0 mainMh cmds Table.empty with
  | .ok _ t => LoadedOnce k cmds t
  | .error h _ => h ≠ .endless ∧ h ≠ .panic .tooManyImages

/-- The loader panics for another reason than too many images. -/
def PanicsOtherwise (k : Kernel) (argv0 : Option CString) (mainMh : ℕ) (cmds : List LoadCommand) :
    Prop :=
  ∃ p t, loadMain k argv0 mainMh cmds Table.empty = .error (.panic p) t ∧ p ≠ .tooManyImages

/-- **Every dylib is loaded once** exactly if the calls recognise their paths, for executables that
need no more dylibs than the table has room for and that can be loaded at all.

**Proof sketch.** If all calls recognise their paths, the files of the table are different ones that
are needed, so the table is long enough for all; a dependency is the image of its path. If not,
either the image of another file becomes a dependency, or a file that is there is loaded again. -/
theorem loadsOnce_iff (k : Kernel) (argv0 : Option CString) (mainMh : ℕ) (cmds : List LoadCommand)
    (paths : List CString) (hpaths : ∀ path, Needed k cmds path → path ∈ paths)
    (hcount : paths.length < imageMax) :
    LoadsOnce k argv0 mainMh cmds ↔ PanicsOtherwise k argv0 mainMh cmds ∨
      ∀ c ∈ (stateAfter (loadMain k argv0 mainMh cmds) Table.empty).calls, Recognises c := by
  have hends := loadMain_ends k argv0 mainMh cmds
  unfold LoadsOnce PanicsOtherwise
  cases hrun : loadMain k argv0 mainMh cmds Table.empty with
  | ok _ t =>
    have hloaded := hends.ok hrun
    rw [stateAfter_ok hrun]
    constructor
    · intro honce
      exact Or.inr fun c hc => hloaded.recognises honce hc
    · rintro (⟨p, t', hpanic, -⟩ | hrec)
      · cases hpanic
      · exact hloaded.loadedOnce hrec
  | error h t =>
    obtain ⟨hsound, hrounds, hfull⟩ := hends.error hrun
    rw [stateAfter_error hrun]
    constructor
    · rintro ⟨-, hother⟩
      left
      cases h with
      | endless => exact absurd rfl hrounds
      | panic p => exact ⟨p, t, rfl, fun heq => hother (congrArg Halt.panic heq)⟩
    · rintro (⟨p, t', hpanic, hother⟩ | hrec)
      · obtain ⟨rfl, -⟩ := EStateM.Result.error.inj hpanic
        exact ⟨by simp, fun heq => hother (Halt.panic.inj heq)⟩
      · refine ⟨hrounds, fun heq => ?_⟩
        obtain ⟨c, hc, hnone, hlen⟩ := hfull heq
        exact hsound.not_full hrec hpaths hcount hc hnone hlen

/-! ## Two dylibs that depend on themselves -/

/-- A kernel with a dylib that depends on itself. -/
def selfDylib (path : CString) : Kernel where
  file p := if p = path then .machO [headerSegment 0, .loadDylib path] else .missing
  mmap _ _ := true
  hasBytes _ _ _ := true

/-- An executable that is linked with a dylib. -/
def executable (path : CString) : List LoadCommand :=
  [headerSegment 0x100000000, .loadDylib path]

/-- It needs nothing else. -/
lemma needed_selfDylib {path path' : CString}
    (h : Needed (selfDylib path) (executable path) path') : path' ∈ [path] := by
  have hfile : ((selfDylib path).file path).cmds = [headerSegment 0, .loadDylib path] :=
    congrArg File.cmds (if_pos rfl)
  induction h with
  | main h => exact h
  | dep _ h ih =>
    rw [List.mem_singleton.mp ih, hfile] at h
    exact h

/-- A short path. -/
def shortPath : CString := .ofBytes (ascii "/usr/lib/libSelf.dylib")

/-- The dylib with the short path is loaded once. -/
theorem loadsOnce_iff_short :
    LoadsOnce (selfDylib shortPath) none 0x100000000 (executable shortPath) := by
  refine (loadsOnce_iff _ _ _ _ [shortPath] (fun _ h => needed_selfDylib h) (by decide)).mpr
    (Or.inr ?_)
  have hcalls : ((stateAfter (loadMain (selfDylib shortPath) none 0x100000000 (executable shortPath))
      Table.empty).calls.all fun c => decide (Recognises c)) = true := by
    decide +kernel
  intro c hc
  exact of_decide_eq_true (List.all_eq_true.mp hcalls c hc)

/-- A path of 300 bytes. -/
def longPath : CString := .ofBytes (Libc.byte '/' :: List.replicate 299 (Libc.byte 'a'))

/-- **The dylib with the long path is loaded until the table is full.** -/
theorem not_loadsOnce_long :
    (∀ path, Needed (selfDylib longPath) (executable longPath) path → path ∈ [longPath]) ∧
      ¬LoadsOnce (selfDylib longPath) none 0x100000000 (executable longPath) := by
  refine ⟨fun _ h => needed_selfDylib h, ?_⟩
  have hrun : (match loadMain (selfDylib longPath) none 0x100000000 (executable longPath)
      Table.empty with
      | .ok _ _ => false
      | .error h _ => decide (h = .panic .tooManyImages)) = true := by
    decide +kernel
  unfold LoadsOnce
  cases h : loadMain (selfDylib longPath) none 0x100000000 (executable longPath) Table.empty with
  | ok _ t =>
    rw [h] at hrun
    cases hrun
  | error e t =>
    rw [h] at hrun
    exact fun hother => hother.2 (of_decide_eq_true hrun)

end Asteros.Dyld
