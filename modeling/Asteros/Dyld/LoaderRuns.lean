import Asteros.Dyld.Loader
import Asteros.Lib.Outcome

set_option autoImplicit false

/-!
# Runs of the loader

What holds of the table whenever the loader has come so far, and what more holds of the images that
are loaded. A call of `image_load_dependency` either finds an image or adds one at the end of the
table; what it answers becomes the next dependency of the image that is being parsed.

## Main definitions

* `dylibPaths` — the paths in the load commands of an image.
* `Answers`, `Recorded` — a call with its answer and its place.
* `Sound` — the invariant.
* `Loaded` — the table when the main executable is loaded.

## Main results

* `loadMain_ends` — how loading ends.
-/

namespace Asteros.Dyld

open Asteros.Libc Outcome

/-! ## The invariant -/

/-- The paths of the dylibs that an image with these load commands depends on. -/
def dylibPaths (cmds : List LoadCommand) : List CString :=
  cmds.filterMap fun cmd =>
    match cmd with
    | .loadDylib path => some path
    | .loadWeakDylib path => some path
    | _ => none

/-- What never changes in an entry: the path in the table, the file and the load commands. -/
abbrev KeptEntry := List UInt8 × Option CString × List LoadCommand

/-- The part of an entry that never changes. -/
def Entry.kept (e : Entry) : KeptEntry := (e.image.path, e.file, e.cmds)

/-- The call is answered with this index: of an image it has found, or of a new one. -/
def Answers (t : Table) (c : Call) (i : ℕ) : Prop :=
  findLoaded c.entries c.path = some i ∨
    findLoaded c.entries c.path = none ∧ i = c.entries.length ∧
      ∃ e, t.entries[i]? = some e ∧ e.file = some c.path

/-- The answer to the call is the dependency of its image for its path. -/
def Recorded (t : Table) (c : Call) : Prop :=
  ∃ (e : Entry) (n i : ℕ), t.entries[c.parent]? = some e ∧ (dylibPaths e.cmds)[n]? = some c.path ∧
    e.image.deps[n]? = some i ∧ Answers t c i

/-- **The invariant of the loader.** -/
structure Sound (k : Kernel) (main : KeptEntry) (t : Table) : Prop where
  /-- The main executable is there. -/
  first : ∃ e, t.entries[0]? = some e ∧ e.kept = main
  /-- The table is not too long. -/
  length : t.entries.length ≤ imageMax
  /-- The images at the time of a call are still there. -/
  before : ∀ c ∈ t.calls, c.entries.map Entry.kept <+: t.entries.map Entry.kept
  /-- A call is made for an image that has the path in its load commands. -/
  parent : ∀ c ∈ t.calls, ∃ e, c.entries[c.parent]? = some e ∧ c.path ∈ dylibPaths e.cmds
  /-- Every image but the first is from a call that did not find one. -/
  registered : ∀ (i : ℕ) (e : Entry), t.entries[i + 1]? = some e → ∃ c ∈ t.calls, c.entries.length = i + 1 ∧
    findLoaded c.entries c.path = none ∧
    e.kept = (c.path.bytes.take pathMax, some c.path, (k.file c.path).cmds)
  /-- Every dependency is from a call. -/
  answered : ∀ (x : ℕ) (e : Entry) (n i : ℕ), t.entries[x]? = some e → e.image.deps[n]? = some i →
    ∃ c ∈ t.calls, c.parent = x ∧ (dylibPaths e.cmds)[n]? = some c.path ∧ Answers t c i

/-- The table has grown. -/
structure Later (t t' : Table) : Prop where
  entries : ∀ (x : ℕ) (e : Entry), t.entries[x]? = some e →
    ∃ e' : Entry, t'.entries[x]? = some e' ∧ e'.kept = e.kept ∧ e.image.deps <+: e'.image.deps
  calls : t.calls <+: t'.calls

/-- All load commands of an image have been parsed. -/
def Entry.Parsed (e : Entry) : Prop := e.image.deps.length = (dylibPaths e.cmds).length

/-- What is in a prefix is in the list. -/
lemma getElem?_of_prefix {α : Type} {l l' : List α} (h : l <+: l') {n : ℕ} {a : α}
    (ha : l[n]? = some a) : l'[n]? = some a := by
  obtain ⟨hn, rfl⟩ := List.getElem?_eq_some_iff.mp ha
  exact List.prefix_iff_getElem?.mp h n hn

section Growth

variable {k : Kernel} {main : KeptEntry} {t t' t'' : Table} {c : Call} {i : ℕ}

/-- Nothing happened. -/
lemma Later.refl (t : Table) : Later t t :=
  ⟨fun _ e he => ⟨e, he, rfl, List.prefix_refl _⟩, List.prefix_refl _⟩

/-- One thing after another. -/
lemma Later.trans (h : Later t t') (h' : Later t' t'') : Later t t'' := by
  refine ⟨fun x e he => ?_, h.calls.trans h'.calls⟩
  obtain ⟨e', he', hkept, hdeps⟩ := h.entries x e he
  obtain ⟨e'', he'', hkept', hdeps'⟩ := h'.entries x e' he'
  exact ⟨e'', he'', hkept'.trans hkept, hdeps.trans hdeps'⟩

/-- The images are still there. -/
lemma Later.kept (h : Later t t') : t.entries.map Entry.kept <+: t'.entries.map Entry.kept := by
  rw [List.prefix_iff_getElem?]
  intro x hx
  rw [List.length_map] at hx
  obtain ⟨e', he', hkept, -⟩ := h.entries x t.entries[x] (List.getElem?_eq_getElem hx)
  rw [List.getElem?_map, he', Option.map_some, hkept, List.getElem_map]

/-- An answer stays. -/
lemma Answers.later (h : Later t t') (ha : Answers t c i) : Answers t' c i := by
  refine ha.imp_right ?_
  rintro ⟨hnone, hi, e, he, hfile⟩
  obtain ⟨e', he', hkept, -⟩ := h.entries i e he
  have hfile' : e'.file = e.file := (Prod.ext_iff.mp (Prod.ext_iff.mp hkept).2).1
  exact ⟨hnone, hi, e', he', hfile'.trans hfile⟩

/-- So does its place. -/
lemma Recorded.later (h : Later t t') (hr : Recorded t c) : Recorded t' c := by
  obtain ⟨e, n, i, he, hpath, hdep, ha⟩ := hr
  obtain ⟨e', he', hkept, hdeps⟩ := h.entries _ e he
  have hcmds : e'.cmds = e.cmds := (Prod.ext_iff.mp (Prod.ext_iff.mp hkept).2).2
  refine ⟨e', n, i, he', hcmds ▸ hpath, ?_, ha.later h⟩
  exact getElem?_of_prefix hdeps hdep

/-- An image that is there is there later. -/
lemma Later.lt (h : Later t t') (hi : i < t.entries.length) : i < t'.entries.length := by
  obtain ⟨e', he', -⟩ := h.entries i t.entries[i] (List.getElem?_eq_getElem hi)
  exact (List.getElem?_eq_some_iff.mp he').1

/-- The first image stays. -/
lemma first_later (h : Later t t') (hfirst : ∃ e, t.entries[0]? = some e ∧ e.kept = main) :
    ∃ e, t'.entries[0]? = some e ∧ e.kept = main := by
  obtain ⟨e, he, hmain⟩ := hfirst
  obtain ⟨e', he', hkept, -⟩ := h.entries 0 e he
  exact ⟨e', he', hkept.trans hmain⟩

end Growth

/-! ## What the steps keep -/

section Steps

variable {k : Kernel} {main : KeptEntry} {t : Table} {c : Call} {e : Entry} {i parent : ℕ} {path : CString}

/-- The table after a call has been noted. -/
def Table.noted (t : Table) (parent : ℕ) (path : CString) : Table :=
  { t with calls := t.calls ++ [⟨parent, path, t.entries⟩] }

/-- The table with an image more. -/
def Table.added (t : Table) (e : Entry) : Table := { t with entries := t.entries ++ [e] }

/-- The table with an image changed. -/
def Table.modified (t : Table) (i : ℕ) (f : Image → Image) : Table :=
  { t with entries := t.entries.modify i fun e => { e with image := f e.image } }

/-- Noting a call changes no image. -/
lemma Later.noted : Later t (t.noted parent path) :=
  ⟨fun _ e he => ⟨e, he, rfl, List.prefix_refl _⟩, List.prefix_append _ _⟩

/-- Neither does adding one. -/
lemma Later.added : Later t (t.added e) := by
  refine ⟨fun x e' he' => ⟨e', ?_, rfl, List.prefix_refl _⟩, List.prefix_refl _⟩
  exact getElem?_of_prefix (List.prefix_append _ _) he'

/-- The images of a changed table. -/
lemma getElem?_modified (t : Table) (i : ℕ) (f : Image → Image) (x : ℕ) :
    (t.modified i f).entries[x]? =
      if i = x then t.entries[x]?.map fun e => { e with image := f e.image }
      else t.entries[x]? := by
  rw [Table.modified, List.getElem?_modify]
  split_ifs
  · rfl
  · exact Option.map_id_apply

/-- A change that adds dependencies. -/
lemma Later.modified {f : Image → Image} (he : t.entries[i]? = some e)
    (hpath : (f e.image).path = e.image.path) (hdeps : e.image.deps <+: (f e.image).deps) :
    Later t (t.modified i f) := by
  refine ⟨fun x e' he' => ?_, List.prefix_refl _⟩
  by_cases hx : i = x
  · subst hx
    obtain rfl := Option.some.inj (he.symm.trans he')
    refine ⟨{ e with image := f e.image }, ?_, ?_, hdeps⟩
    · rw [getElem?_modified, if_pos rfl, he, Option.map_some]
    · exact Prod.ext hpath rfl
  · refine ⟨e', ?_, rfl, List.prefix_refl _⟩
    rw [getElem?_modified, if_neg hx, he']

/-- A call may be noted for an image that has its path. -/
lemma Sound.noted (h : Sound k main t) (he : t.entries[parent]? = some e)
    (hpath : path ∈ dylibPaths e.cmds) : Sound k main (t.noted parent path) where
  first := h.first
  length := h.length
  before := by
    intro c hc
    rcases List.mem_append.mp hc with hc | hc
    · exact h.before c hc
    · obtain rfl := List.mem_singleton.mp hc
      exact List.prefix_refl _
  parent := by
    intro c hc
    rcases List.mem_append.mp hc with hc | hc
    · exact h.parent c hc
    · obtain rfl := List.mem_singleton.mp hc
      exact ⟨e, he, hpath⟩
  registered := by
    intro i e hi
    obtain ⟨c, hc, hrest⟩ := h.registered i e hi
    exact ⟨c, List.mem_append_left _ hc, hrest⟩
  answered := by
    intro x e n i hx hn
    obtain ⟨c, hc, hrest⟩ := h.answered x e n i hx hn
    exact ⟨c, List.mem_append_left _ hc, hrest⟩

/-- A new image is added for the call that wants it. -/
lemma Sound.added (h : Sound k main t) (hlen : t.entries.length < imageMax) (hc : c ∈ t.calls)
    (hentries : c.entries = t.entries) (hnone : findLoaded c.entries c.path = none) :
    Sound k main (t.added ⟨.zeroed c.path, some c.path, (k.file c.path).cmds⟩) where
  first := first_later Later.added h.first
  length := by
    change (t.entries ++ [_]).length ≤ imageMax
    rw [List.length_append, List.length_singleton]
    exact hlen
  before := fun c hc => (h.before c hc).trans (Later.added).kept
  parent := h.parent
  registered := by
    intro i e hi
    rcases Nat.lt_or_ge (i + 1) t.entries.length with hlt | hge
    · refine h.registered i e ?_
      rw [← hi]
      exact (List.getElem?_append_left hlt).symm
    · have hlast : (t.entries ++ [_])[i + 1]? = some e := hi
      rw [List.getElem?_append_right hge, List.getElem?_singleton] at hlast
      split_ifs at hlast with hzero
      obtain rfl := Option.some.inj hlast
      exact ⟨c, hc, by rw [hentries]; omega, hnone, rfl⟩
  answered := by
    intro x e n i hx hn
    rcases Nat.lt_or_ge x t.entries.length with hlt | hge
    · have hx' : t.entries[x]? = some e := by
        rw [← hx]
        exact (List.getElem?_append_left hlt).symm
      obtain ⟨c, hc, hparent, hpath, ha⟩ := h.answered x e n i hx' hn
      exact ⟨c, hc, hparent, hpath, ha.later Later.added⟩
    · have hlast : (t.entries ++ [_])[x]? = some e := hx
      rw [List.getElem?_append_right hge, List.getElem?_singleton] at hlast
      split_ifs at hlast
      obtain rfl := Option.some.inj hlast
      exact absurd hn (by simp [Image.zeroed])

/-- An image is changed; its dependencies are from calls. -/
lemma Sound.modified {f : Image → Image} (h : Sound k main t) (he : t.entries[i]? = some e)
    (hpath : (f e.image).path = e.image.path) (hdeps : e.image.deps <+: (f e.image).deps)
    (hcalls : ∀ n j : ℕ, (f e.image).deps[n]? = some j → ∃ c ∈ t.calls, c.parent = i ∧
      (dylibPaths e.cmds)[n]? = some c.path ∧ Answers t c j) :
    Sound k main (t.modified i f) := by
  have hlater : Later t (t.modified i f) := Later.modified he hpath hdeps
  refine ⟨first_later hlater h.first, ?_, fun c hc => (h.before c hc).trans hlater.kept, h.parent, ?_, ?_⟩
  · rw [Table.modified, List.length_modify]
    exact h.length
  · intro x e' hx
    rw [getElem?_modified] at hx
    split_ifs at hx with hix
    · rw [← hix, he] at hx
      obtain rfl := Option.some.inj hx
      rw [hix] at he
      obtain ⟨c, hc, hlen, hnone, hkept⟩ := h.registered x e he
      have hsame : ({ e with image := f e.image } : Entry).kept = e.kept := Prod.ext hpath rfl
      exact ⟨c, hc, hlen, hnone, hsame.trans hkept⟩
    · exact h.registered x e' hx
  · intro x e' n j hx hn
    rw [getElem?_modified] at hx
    split_ifs at hx with hix
    · rw [← hix, he] at hx
      obtain rfl := Option.some.inj hx
      obtain ⟨c, hc, hparent, hpath, ha⟩ := hcalls n j hn
      exact ⟨c, hc, hparent.trans hix, hpath, ha.later hlater⟩
    · obtain ⟨c, hc, hparent, hpath, ha⟩ := h.answered x e' n j hx hn
      exact ⟨c, hc, hparent, hpath, ha.later hlater⟩

end Steps

/-! ## What the loader does -/

section Load

variable {k : Kernel} {main : KeptEntry} {t t' t'' : Table} {i parent : ℕ} {path : CString}

/-- The loader has stopped: not for want of rounds, and if there are too many images, a call has
not found its image in a full table. -/
def Stopped (k : Kernel) (main : KeptEntry) (h : Halt) (t : Table) : Prop :=
  Sound k main t ∧ h ≠ .endless ∧ (h = .panic .tooManyImages →
    ∃ c ∈ t.calls, findLoaded c.entries c.path = none ∧ imageMax ≤ c.entries.length)

/-- The table has grown by parsed images, and of the others only those in `may` have changed. All
calls since then are recorded, but for `first`. -/
structure Grown (k : Kernel) (main : KeptEntry) (may : ℕ → Prop) (first : List Call) (t t' : Table) : Prop where
  sound : Sound k main t'
  later : Later t t'
  others : ∀ x, ¬may x → x < t.entries.length → t'.entries[x]? = t.entries[x]?
  parsed : ∀ (x : ℕ) (e : Entry), ¬may x → t.entries.length ≤ x → t'.entries[x]? = some e →
    e.Parsed
  calls : ∃ rest, t'.calls = t.calls ++ (first ++ rest) ∧ ∀ c ∈ rest, Recorded t' c

/-- A function that behaves as `image_load_dependency` should, on tables of some length. -/
def Loads (k : Kernel) (main : KeptEntry) (load : ℕ → CString → Loader ℕ) (least : ℕ) : Prop :=
  ∀ (t : Table) (parent : ℕ) (path : CString) (e : Entry), Sound k main t → least ≤ t.entries.length →
    t.entries[parent]? = some e → path ∈ dylibPaths e.cmds →
    Ends (load parent path) t
      (fun i t' => Grown k main (fun _ => False) [⟨parent, path, t.entries⟩] t t' ∧
        Answers t' ⟨parent, path, t.entries⟩ i)
      (Stopped k main)

/-- Nothing happened. -/
lemma Grown.refl {may : ℕ → Prop} (h : Sound k main t) : Grown k main may [] t t where
  sound := h
  later := Later.refl t
  others := fun _ _ _ => rfl
  parsed := fun x e _ hx he => absurd (List.getElem?_eq_some_iff.mp he).1 (not_lt.mpr hx)
  calls := ⟨[], by simp, by simp⟩

/-- One thing after another, where an image that is there may change. -/
lemma Grown.trans (h : Grown k main (· = i) [] t t')
    (h' : Grown k main (· = i) [] t' t'') : Grown k main (· = i) [] t t'' where
  sound := h'.sound
  later := h.later.trans h'.later
  others := fun x hx hlt => (h'.others x hx (h.later.lt hlt)).trans (h.others x hx hlt)
  parsed := by
    intro x e hx hge he
    rcases Nat.lt_or_ge x t'.entries.length with hlt | hge'
    · exact h.parsed x e hx hge ((h'.others x hx hlt).symm.trans he)
    · exact h'.parsed x e hx hge' he
  calls := by
    obtain ⟨rest, hcalls, hrest⟩ := h.calls
    obtain ⟨rest', hcalls', hrest'⟩ := h'.calls
    refine ⟨rest ++ rest', by simp only [hcalls', hcalls, List.nil_append, List.append_assoc], ?_⟩
    intro c hc
    rcases List.mem_append.mp hc with hc | hc
    · exact (hrest c hc).later h'.later
    · exact hrest' c hc

/-- A change of an image that adds dependencies. -/
lemma Grown.modified {f : Image → Image} {e : Entry} (h : Sound k main (t.modified i f))
    (he : t.entries[i]? = some e) (hpath : (f e.image).path = e.image.path)
    (hdeps : e.image.deps <+: (f e.image).deps) : Grown k main (· = i) [] t (t.modified i f) where
  sound := h
  later := Later.modified he hpath hdeps
  others := by
    intro x hx _
    rw [getElem?_modified, if_neg (Ne.symm hx)]
  parsed := by
    intro x e hx hge he
    rw [getElem?_modified, if_neg (Ne.symm hx)] at he
    exact absurd (List.getElem?_eq_some_iff.mp he).1 (not_lt.mpr hge)
  calls := ⟨[], (List.append_nil _).symm, by simp⟩

/-- The image after a change. -/
lemma getElem?_modified_self {f : Image → Image} {e : Entry} (he : t.entries[i]? = some e) :
    (t.modified i f).entries[i]? = some { e with image := f e.image } := by
  rw [getElem?_modified, if_pos rfl, he, Option.map_some]

/-- Looking at an image. -/
lemma ends_imageAt {e : Entry} (he : t.entries[i]? = some e) {Q : Image → Table → Prop}
    {E : Halt → Table → Prop} (h : Q e.image t) : Ends (imageAt i) t Q E := by
  refine Ends.bind (Ends.get ?_)
  rw [he]
  exact h

/-- **Parsing a dependency** adds the answer of the call. -/
lemma ends_parseDylib {load : ℕ → CString → Loader ℕ} {least : ℕ} (hload : Loads k main load least)
    (h : Sound k main t) (hleast : least ≤ t.entries.length) {e : Entry} (he : t.entries[i]? = some e)
    (hpath : (dylibPaths e.cmds)[e.image.deps.length]? = some path) :
    Ends (parseDylib load i path) t
      (fun _ t' => Grown k main (· = i) [] t t' ∧ ∃ e', t'.entries[i]? = some e' ∧ e'.kept = e.kept ∧
        e'.image.deps.length = e.image.deps.length + 1)
      (Stopped k main) := by
  have hi : i < t.entries.length := (List.getElem?_eq_some_iff.mp he).1
  refine Ends.bind (ends_imageAt he ?_)
  split_ifs
  · exact Ends.throw ⟨h, by simp, by simp⟩
  · refine Ends.bind ((hload t i path e h hleast he (List.mem_of_getElem? hpath)).mono ?_
      fun _ _ h => h)
    rintro dep t' ⟨hgrown, hanswers⟩
    have he' : t'.entries[i]? = some e := (hgrown.others i not_false hi).trans he
    obtain ⟨rest, hcalls, hrest⟩ := hgrown.calls
    let f : Image → Image := fun im => { im with deps := im.deps ++ [dep] }
    have hcall : (⟨i, path, t.entries⟩ : Call) ∈ t'.calls := by
      rw [hcalls]
      simp
    have hdeps : e.image.deps <+: (f e.image).deps := List.prefix_append _ _
    have hsound : Sound k main (t'.modified i f) := by
      refine hgrown.sound.modified he' rfl hdeps ?_
      intro n j hn
      rcases Nat.lt_or_ge n e.image.deps.length with hlt | hge
      · refine hgrown.sound.answered i e n j he' ?_
        rw [← hn]
        exact (List.getElem?_append_left hlt).symm
      · have hlast : (e.image.deps ++ [dep])[n]? = some j := hn
        rw [List.getElem?_append_right hge, List.getElem?_singleton] at hlast
        split_ifs at hlast with hzero
        obtain rfl := Option.some.inj hlast
        obtain rfl : n = e.image.deps.length := by omega
        exact ⟨_, hcall, rfl, hpath, hanswers⟩
    have hlater : Later t' (t'.modified i f) := Later.modified he' rfl hdeps
    have hself := getElem?_modified_self (f := f) he'
    refine Ends.modify ⟨⟨hsound, hgrown.later.trans hlater, ?_, ?_, ?_⟩, _, hself, rfl, ?_⟩
    · intro x hx hlt
      refine Eq.trans ?_ (hgrown.others x not_false hlt)
      exact (getElem?_modified t' i f x).trans (if_neg (Ne.symm hx))
    · intro x e'' hx hge he''
      refine hgrown.parsed x e'' not_false hge ?_
      rw [← he'']
      exact ((getElem?_modified t' i f x).trans (if_neg (Ne.symm hx))).symm
    · refine ⟨⟨i, path, t.entries⟩ :: rest, hcalls, ?_⟩
      intro c hc
      rcases List.mem_cons.mp hc with rfl | hc
      · refine ⟨_, _, dep, hself, hpath, ?_, hanswers.later hlater⟩
        exact List.getElem?_concat_length
      · exact (hrest c hc).later hlater
    · exact List.length_append

/-- A change that adds no dependencies and finds no other path. -/
lemma ends_modifyImage (h : Sound k main t) {e : Entry} (he : t.entries[i]? = some e) (f : Image → Image)
    (hpath : (f e.image).path = e.image.path) (hdeps : (f e.image).deps = e.image.deps) :
    Ends (modifyImage i f) t
      (fun _ t' => Grown k main (· = i) [] t t' ∧ ∃ e', t'.entries[i]? = some e' ∧ e'.kept = e.kept ∧
        e'.image.deps.length = e.image.deps.length)
      (Stopped k main) := by
  have hprefix : e.image.deps <+: (f e.image).deps :=
    ⟨[], (List.append_nil _).trans hdeps.symm⟩
  have hsound : Sound k main (t.modified i f) := by
    refine h.modified he hpath hprefix fun n j hn => ?_
    rw [hdeps] at hn
    exact h.answered i e n j he hn
  refine Ends.modify ⟨Grown.modified hsound he hpath hprefix, _, getElem?_modified_self he, ?_, ?_⟩
  · exact Prod.ext hpath rfl
  · exact congrArg List.length hdeps

/-- **Parsing a load command** adds as many dependencies as it has paths. -/
lemma ends_parseCommand {load : ℕ → CString → Loader ℕ} {least : ℕ} (hload : Loads k main load least)
    (h : Sound k main t) (hleast : least ≤ t.entries.length) {e : Entry} (he : t.entries[i]? = some e)
    {done rest : List LoadCommand} {cmd : LoadCommand} (hcmds : e.cmds = done ++ cmd :: rest)
    (hdeps : e.image.deps.length = (dylibPaths done).length) :
    Ends (parseCommand load i cmd) t
      (fun _ t' => Grown k main (· = i) [] t t' ∧ ∃ e', t'.entries[i]? = some e' ∧ e'.kept = e.kept ∧
        e'.image.deps.length = (dylibPaths (done ++ [cmd])).length)
      (Stopped k main) := by
  have hdylib : ∀ path, dylibPaths [cmd] = [path] →
      Ends (parseDylib load i path) t
        (fun _ t' => Grown k main (· = i) [] t t' ∧ ∃ e', t'.entries[i]? = some e' ∧ e'.kept = e.kept ∧
          e'.image.deps.length = (dylibPaths (done ++ [cmd])).length)
        (Stopped k main) := by
    intro path hone
    have hpaths : dylibPaths e.cmds = dylibPaths done ++ path :: dylibPaths rest := by
      have hcons : dylibPaths (cmd :: rest) = dylibPaths [cmd] ++ dylibPaths rest :=
        List.filterMap_append (l := [cmd])
      rw [hcmds, dylibPaths, List.filterMap_append]
      change dylibPaths done ++ dylibPaths (cmd :: rest) = _
      rw [hcons, hone, List.singleton_append]
    have hpath : (dylibPaths e.cmds)[e.image.deps.length]? = some path := by
      rw [hpaths, hdeps, List.getElem?_append_right (Nat.le_refl _), Nat.sub_self]
      rfl
    have hlength : (dylibPaths (done ++ [cmd])).length = e.image.deps.length + 1 := by
      have happend : dylibPaths (done ++ [cmd]) = dylibPaths done ++ dylibPaths [cmd] :=
        List.filterMap_append
      rw [happend, hone, List.length_append, hdeps]
      rfl
    rw [hlength]
    exact ends_parseDylib hload h hleast he hpath
  have hother : dylibPaths [cmd] = [] →
      (dylibPaths (done ++ [cmd])).length = e.image.deps.length := by
    intro hnil
    have happend : dylibPaths (done ++ [cmd]) = dylibPaths done ++ dylibPaths [cmd] :=
      List.filterMap_append
    rw [happend, hnil, List.append_nil, hdeps]
  cases cmd with
  | segment sc =>
    rw [hother rfl]
    refine Ends.bind (ends_imageAt he ?_)
    split_ifs
    · exact Ends.throw ⟨h, by simp, by simp⟩
    · exact ends_modifyImage h he _ rfl rfl
  | dyldInfo rebase bind weakBind lazyBind exports =>
    rw [hother rfl]
    exact ends_modifyImage h he _ rfl rfl
  | loadDylib path => exact hdylib path rfl
  | loadWeakDylib path => exact hdylib path rfl
  | other =>
    rw [hother rfl]
    exact Ends.pure ⟨Grown.refl h, e, he, rfl, rfl⟩

/-- **Parsing the load commands** of an image. -/
lemma ends_parseCommands {load : ℕ → CString → Loader ℕ} {least : ℕ} (hload : Loads k main load least)
    {rest : List LoadCommand} (h : Sound k main t) (hleast : least ≤ t.entries.length) {e : Entry}
    (he : t.entries[i]? = some e) {done : List LoadCommand} (hcmds : e.cmds = done ++ rest)
    (hdeps : e.image.deps.length = (dylibPaths done).length) :
    Ends (parseCommands load i rest) t
      (fun _ t' => Grown k main (· = i) [] t t' ∧ ∃ e', t'.entries[i]? = some e' ∧ e'.kept = e.kept ∧
        e'.Parsed)
      (Stopped k main) := by
  induction rest generalizing t e done with
  | nil =>
    rw [List.append_nil] at hcmds
    refine Ends.pure ⟨Grown.refl h, e, he, rfl, ?_⟩
    rw [Entry.Parsed, hdeps, hcmds]
  | cons cmd rest ih =>
    refine Ends.bind ((ends_parseCommand hload h hleast he hcmds hdeps).mono ?_ fun _ _ h => h)
    rintro ⟨⟩ t' ⟨hgrown, e', he', hkept, hdeps'⟩
    have hcmds' : e'.cmds = e.cmds := (Prod.ext_iff.mp (Prod.ext_iff.mp hkept).2).2
    have hleast' : least ≤ t'.entries.length := by
      have hlength := hgrown.later.kept.length_le
      rw [List.length_map, List.length_map] at hlength
      exact hleast.trans hlength
    refine (ih hgrown.sound hleast' he' (hcmds'.trans (hcmds.trans (List.append_cons done cmd rest)))
      hdeps').mono ?_ fun _ _ h => h
    rintro ⟨⟩ t'' ⟨hgrown', e'', he'', hkept', hparsed⟩
    exact ⟨hgrown.trans hgrown', e'', he'', hkept'.trans hkept, hparsed⟩

/-- **Parsing an image.** -/
lemma ends_imageParseLoaded {load : ℕ → CString → Loader ℕ} {least : ℕ} (hload : Loads k main load least)
    (h : Sound k main t) (hleast : least ≤ t.entries.length) {e : Entry} (he : t.entries[i]? = some e)
    (hdeps : e.image.deps = []) (mh slide : ℕ) :
    Ends (imageParseLoaded load i mh slide e.cmds) t
      (fun _ t' => Grown k main (· = i) [] t t' ∧ ∃ e', t'.entries[i]? = some e' ∧ e'.kept = e.kept ∧
        e'.Parsed)
      (Stopped k main) := by
  refine Ends.bind ((ends_modifyImage h he _ rfl rfl).mono ?_ fun _ _ h => h)
  rintro ⟨⟩ t' ⟨hgrown, e', he', hkept, hdeps'⟩
  have hcmds' : e'.cmds = e.cmds := (Prod.ext_iff.mp (Prod.ext_iff.mp hkept).2).2
  have hleast' : least ≤ t'.entries.length := by
    have hlength := hgrown.later.kept.length_le
    rw [List.length_map, List.length_map] at hlength
    exact hleast.trans hlength
  rw [hdeps] at hdeps'
  rw [← hcmds']
  refine (ends_parseCommands hload hgrown.sound hleast' he'
    (show e'.cmds = [] ++ e'.cmds from rfl) hdeps').mono ?_
    fun _ _ h => h
  rintro ⟨⟩ t'' ⟨hgrown', e'', he'', hkept', hparsed⟩
  exact ⟨hgrown.trans hgrown', e'', he'', hkept'.trans hkept, hparsed⟩

/-- The images and the calls are the same. -/
def SameImages (t t' : Table) : Prop := t'.entries = t.entries ∧ t'.calls = t.calls

/-- The invariant is about images and calls. -/
lemma Sound.congr (h : Sound k main t) (hsame : SameImages t t') : Sound k main t' := by
  obtain ⟨hentries, hcalls⟩ := hsame
  obtain ⟨hfirst, hlength, hbefore, hparent, hregistered, hanswered⟩ := h
  have hanswers : ∀ c i, Answers t c i → Answers t' c i := by
    intro c i ha
    unfold Answers at ha ⊢
    rwa [hentries]
  refine ⟨by rwa [hentries], by rwa [hentries], by rwa [hentries, hcalls], by rwa [hcalls],
    by rwa [hentries, hcalls], ?_⟩
  intro x e n i hx hn
  rw [hentries] at hx
  obtain ⟨c, hc, hparent, hpath, ha⟩ := hanswered x e n i hx hn
  exact ⟨c, hcalls ▸ hc, hparent, hpath, hanswers c i ha⟩

/-- Mapping segments changes nothing. -/
lemma ends_mapSegments (slide : ℕ) (cmds : List LoadCommand) :
    Ends (mapSegments k path slide cmds) t (fun _ t' => t' = t)
      (fun h t' => t' = t ∧ h ≠ .endless ∧ h ≠ .panic .tooManyImages) := by
  induction cmds with
  | nil => exact Ends.pure rfl
  | cons cmd cmds ih =>
    cases cmd with
    | segment sc =>
      unfold mapSegments
      dsimp only
      split
      · split
        · exact Ends.throw ⟨rfl, by simp, by simp⟩
        · split
          · exact Ends.throw ⟨rfl, by simp, by simp⟩
          · exact Ends.bind (ih.mono (fun _ _ h => Ends.pure h) fun _ _ h => h)
      · exact ih
    | _ => exact ih

/-- Mapping an image changes no image. -/
lemma ends_mapImage (cmds : List LoadCommand) :
    Ends (mapImage k path cmds) t (fun _ t' => SameImages t t')
      (fun h t' => SameImages t t' ∧ h ≠ .endless ∧ h ≠ .panic .tooManyImages) := by
  unfold mapImage
  dsimp only
  split_ifs
  · exact Ends.throw ⟨⟨rfl, rfl⟩, by simp, by simp⟩
  · refine Ends.bind (Ends.get (Ends.bind (Ends.modify (Ends.bind ?_))))
    refine (ends_mapSegments _ cmds).mono ?_ ?_
    · rintro ranges t' rfl
      exact Ends.bind (Ends.modify (Ends.pure ⟨rfl, rfl⟩))
    · rintro h t' ⟨rfl, hrounds, himages⟩
      exact ⟨⟨rfl, rfl⟩, hrounds, himages⟩

/-- Opening a file changes nothing. -/
lemma ends_openImage : Ends (openImage k path) t
    (fun cmds t' => t' = t ∧ (k.file path).cmds = cmds)
    (fun h t' => t' = t ∧ h ≠ .endless ∧ h ≠ .panic .tooManyImages) := by
  unfold openImage
  cases k.file path with
  | missing => exact Ends.throw ⟨rfl, by simp, by simp⟩
  | notMachO => exact Ends.throw ⟨rfl, by simp, by simp⟩
  | shortCommands => exact Ends.throw ⟨rfl, by simp, by simp⟩
  | machO cmds => exact Ends.pure ⟨rfl, rfl⟩

/-- **A call finds an image or loads one**, if the calls inside it do. -/
lemma loads_loadDependency {load : ℕ → CString → Loader ℕ} {least : ℕ}
    (hload : Loads k main load (least + 1)) : Loads k main (loadDependency k load) least := by
  intro t parent path e h hleast he hpath
  let c : Call := ⟨parent, path, t.entries⟩
  have hnoted : Sound k main (t.noted parent path) := h.noted he hpath
  have hmem : c ∈ (t.noted parent path).calls := List.mem_append_right _ List.mem_cons_self
  refine Ends.bind (Ends.modify (Ends.bind (Ends.get ?_)))
  split
  · next i hfind =>
    refine Ends.pure ⟨⟨hnoted, Later.noted, fun _ _ _ => rfl, ?_, [], rfl, by simp⟩, Or.inl hfind⟩
    intro x e _ hx he
    exact absurd (List.getElem?_eq_some_iff.mp he).1 (not_lt.mpr hx)
  · next hfind =>
    split_ifs with hfull
    · exact Ends.throw ⟨hnoted, by simp, fun _ => ⟨c, hmem, hfind, hfull⟩⟩
    · have hroom : t.entries.length < imageMax := not_le.mp hfull
      have hadded := hnoted.added hroom hmem rfl hfind
      let new : Entry := ⟨.zeroed path, some path, (k.file path).cmds⟩
      let t₂ : Table := (t.noted parent path).added new
      have hlater : Later t t₂ := Later.noted.trans Later.added
      have hstop : ∀ h t', t' = t₂ ∧ h ≠ .endless ∧ h ≠ .panic .tooManyImages → Stopped k main h t' := by
        rintro h t' ⟨rfl, hrounds, himages⟩
        exact ⟨hadded, hrounds, fun heq => absurd heq himages⟩
      have hnew : t₂.entries[t.entries.length]? = some new := List.getElem?_concat_length
      refine Ends.bind (Ends.modify (Ends.bind ((ends_openImage).mono ?_ hstop)))
      rintro cmds t' ⟨rfl, hcmds⟩
      refine Ends.bind ((ends_mapImage cmds).mono ?_ ?_)
      · rintro ⟨mh, slide⟩ t₃ hsame
        have hsound₃ : Sound k main t₃ := hadded.congr hsame
        have hnew₃ : t₃.entries[t.entries.length]? = some new := by
          rw [hsame.1]
          exact hnew
        have hlength₃ : t₃.entries.length = t.entries.length + 1 := by
          rw [hsame.1]
          exact List.length_append
        have hparse := ends_imageParseLoaded hload hsound₃ (by omega) hnew₃ rfl mh slide
        have hcmds' : new.cmds = cmds := hcmds
        rw [hcmds'] at hparse
        refine Ends.bind (hparse.mono ?_ fun _ _ h => h)
        rintro ⟨⟩ t₄ ⟨hgrown, e', he', hkept, hparsed⟩
        have hlater₃ : Later t₂ t₃ := by
          refine ⟨fun x e he => ⟨e, ?_, rfl, List.prefix_refl _⟩, ?_⟩
          · rw [hsame.1]
            exact he
          · exact ⟨[], (List.append_nil _).trans hsame.2.symm⟩
        have hfile : e'.file = some path := (Prod.ext_iff.mp (Prod.ext_iff.mp hkept).2).1
        refine Ends.pure ⟨⟨hgrown.sound, (hlater.trans hlater₃).trans hgrown.later, ?_, ?_, ?_⟩,
          Or.inr ⟨hfind, rfl, e', he', hfile⟩⟩
        · intro x _ hx
          refine (hgrown.others x (by omega) (by omega)).trans ?_
          rw [hsame.1]
          exact List.getElem?_append_left hx
        · intro x e'' _ hx he''
          rcases Nat.eq_or_lt_of_le hx with rfl | hlt
          · obtain rfl := Option.some.inj (he'.symm.trans he'')
            exact hparsed
          · exact hgrown.parsed x e'' (by omega) (by omega) he''
        · obtain ⟨rest, hcalls, hrest⟩ := hgrown.calls
          refine ⟨rest, ?_, hrest⟩
          rw [hcalls, hsame.2, List.nil_append]
          exact List.append_assoc _ _ _
      · rintro h t' ⟨hsame, hrounds, himages⟩
        exact ⟨hadded.congr hsame, hrounds, fun heq => absurd heq himages⟩

/-- **`image_load_dependency` does so**, if it has enough rounds for the images that are missing. -/
lemma loads_imageLoadDependency (rounds : ℕ) {least : ℕ} (h : imageMax < least + rounds) :
    Loads k main (imageLoadDependency k rounds) least := by
  induction rounds generalizing least with
  | zero =>
    intro t parent path e hsound hleast _ _
    have hlength := hsound.length
    omega
  | succ rounds ih => exact loads_loadDependency (ih (by omega))

/-- What is kept of a main executable with this name and these load commands. -/
def mainEntry (argv0 : Option CString) (cmds : List LoadCommand) : KeptEntry :=
  ((argv0.getD (.ofBytes (ascii "(main)"))).bytes.take pathMax, none, cmds)

/-- Loading has finished: all images are parsed, and all calls are recorded. -/
structure Loaded (k : Kernel) (main : KeptEntry) (t : Table) : Prop where
  sound : Sound k main t
  parsed : ∀ e ∈ t.entries, e.Parsed
  recorded : ∀ c ∈ t.calls, Recorded t c

/-- **How loading ends.** -/
lemma loadMain_ends (k : Kernel) (argv0 : Option CString) (mainMh : ℕ) (cmds : List LoadCommand) :
    Ends (loadMain k argv0 mainMh cmds) Table.empty (fun _ t => Loaded k (mainEntry argv0 cmds) t)
      (Stopped k (mainEntry argv0 cmds)) := by
  let e : Entry := ⟨.zeroed (argv0.getD (.ofBytes (ascii "(main)"))), none, cmds⟩
  let t : Table := Table.empty.added e
  have hentries : t.entries = [e] := rfl
  have hcalls : t.calls = [] := rfl
  have hmain : t.entries[0]? = some e := rfl
  have hsound : Sound k (mainEntry argv0 cmds) t := by
    refine ⟨⟨e, hmain, rfl⟩, ?_, by simp [hcalls], by simp [hcalls], ?_, ?_⟩
    · rw [hentries]
      exact Nat.le_of_ble_eq_true rfl
    · intro i e' he'
      rw [hentries] at he'
      cases he'
    · intro x e' n i hx hn
      rw [hentries] at hx
      obtain rfl := List.mem_singleton.mp (List.mem_of_getElem? hx)
      cases hn
  refine Ends.bind (Ends.modify ?_)
  cases findPreferredBase cmds none with
  | none => exact Ends.throw ⟨hsound, by simp, by simp⟩
  | some preferred =>
    have hload : Loads k (mainEntry argv0 cmds) (imageLoadDependency k imageMax) 1 :=
      loads_imageLoadDependency imageMax (by omega)
    refine (ends_imageParseLoaded hload hsound (Nat.le_refl 1) hmain rfl mainMh
      (sizeSub mainMh preferred)).mono ?_ fun _ _ h => h
    rintro ⟨⟩ t' ⟨hgrown, e', he', -, hparsed⟩
    refine ⟨hgrown.sound, ?_, ?_⟩
    · intro e'' he''
      obtain ⟨x, hx⟩ := List.getElem?_of_mem he''
      by_cases hzero : x = 0
      · subst hzero
        obtain rfl := Option.some.inj (he'.symm.trans hx)
        exact hparsed
      · refine hgrown.parsed x e'' hzero ?_ hx
        rw [hentries]
        exact Nat.one_le_iff_ne_zero.mpr hzero
    · obtain ⟨rest, hrest, hrecorded⟩ := hgrown.calls
      rw [hrest]
      exact hrecorded

end Load

end Asteros.Dyld
