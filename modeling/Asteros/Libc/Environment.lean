import Asteros.Lib.Transition
import Asteros.Libc.Ascii
import Mathlib.Data.List.TakeWhile

set_option autoImplicit false

/-!
# The environment

`getenv`, `setenv`, `unsetenv` and `putenv` of `stdlib_misc.c`. The vector of the kernel is copied
when it is first to be changed, and grows by being replaced. An entry belongs to every name that
stands in it in front of a `=`, and of the entries of a name the first one counts: `unsetenv`
removes that one and leaves the others.

A call that runs into a null pointer, because there is no memory for the vector, or into an `int`
that overflows, does not return; there is no step for it.

## Main definitions

* `Environment` — `environ`, and what the library knows of its vector.
* `Environment.getenv`, `setenv`, `unsetenv`, `putenv` — the functions.
* `Environment.step` — one call of a program.
* `Environment.Behaves` — a call treats the environment as a map.

## Main results

* `Environment.find_remove_iff` — when a removed name is gone.
* `Environment.capacity_step` — the vector stays within its memory.
* `Environment.behaves_iff` — the runs in which the environment is a map.
-/

namespace Asteros.Libc

/-! ## Entries -/

/-- The character between a name and a value. -/
def equals : UInt8 := byte '='

namespace CString

/-- `s + n`. -/
def drop (s : CString) (n : ℕ) : CString where
  bytes := s.bytes.drop n
  nulFree h := s.nulFree (List.mem_of_mem_drop h)

/-- `name`, `=` and `value`. -/
def entry (name value : CString) : CString where
  bytes := name.bytes ++ equals :: value.bytes
  nulFree h := by
    rcases List.mem_append.mp h with h | h
    · exact name.nulFree h
    · rcases List.mem_cons.mp h with h | h
      · exact absurd h (by decide)
      · exact value.nulFree h

/-- What stands in front of the first `=`. -/
def beforeEquals (s : CString) : CString where
  bytes := s.bytes.takeWhile (· ≠ equals)
  nulFree h := s.nulFree ((List.takeWhile_sublist _).subset h)

/-- What stands behind it. -/
def afterEquals (s : CString) : CString := s.drop (s.beforeEquals.strlen + 1)

/-- `strncmp(e, name, nlen) == 0 && e[nlen] == '='`. -/
def isEntryOf (name e : CString) : Bool := (name.bytes ++ [equals]).isPrefixOf e.bytes

end CString

open CString

/-! ## The functions -/

/-- `environ`, `g_env_owned` and `g_env_cap`, and the elements that the vector has room for if the
library has allocated it. -/
structure Environment where
  /-- The vector, without the null pointer at its end, or a null pointer. -/
  environ : Option (List CString)
  /-- Whether the vector is the library's. -/
  owned : Bool
  /-- The capacity that the library has noted. -/
  cap : ℕ
  /-- The elements that were allocated. -/
  allocated : ℕ

/-- Which calls of `malloc` succeed: the one for a vector and the one for an entry. -/
structure Memory where
  /-- There is memory for a vector. -/
  vector : Bool
  /-- There is memory for an entry. -/
  entry : Bool

namespace Environment

/-- The entries. -/
def entries (s : Environment) : List CString := s.environ.getD []

/-- The loop of `getenv`. -/
def find (name : CString) : List CString → Option CString
  | [] => none
  | e :: es => if isEntryOf name e then some (e.drop (name.strlen + 1)) else find name es

/-- `getenv`. -/
def getenv (s : Environment) (name : CString) : Option CString := s.environ.bind (find name)

/-- `env_take_ownership`. -/
def takeOwnership (vector : Bool) (s : Environment) : Option Environment :=
  if s.owned then some s
  else
    let n := s.entries.length
    if n + 16 < 2 ^ 31 ∧ vector then
      some { environ := some s.entries, owned := true, cap := n + 16, allocated := n + 16 + 1 }
    else none

/-- The loop of `setenv`: the vector with another entry in the place of the first one of the name,
if there is one. -/
def replace (name new : CString) : List CString → Option (List CString)
  | [] => none
  | e :: es => if isEntryOf name e then some (new :: es) else (replace name new es).map (e :: ·)

/-- A larger vector, if another entry does not fit. -/
def grow (vector : Bool) (s : Environment) : Option Environment :=
  if s.entries.length + 1 ≥ s.cap then
    if s.cap * 2 + 16 < 2 ^ 31 ∧ vector then
      some { s with cap := s.cap * 2 + 16, allocated := s.cap * 2 + 16 + 1 }
    else none
  else some s

/-- `setenv`. -/
def setenv (s : Environment) (name value : CString) (overwrite : Bool) (memory : Memory) :
    Option (Environment × ℤ) := do
  let s ← takeOwnership memory.vector s
  match replace name (entry name value) s.entries with
  | some es =>
    if !overwrite then some (s, 0)
    else if !memory.entry then some (s, -1)
    else some ({ s with environ := some es }, 0)
  | none => do
    let s ← grow memory.vector s
    if !memory.entry then some (s, -1)
    else some ({ s with environ := some (s.entries ++ [entry name value]) }, 0)

/-- The loops of `unsetenv`: the vector without the first entry of the name, if there is one. -/
def remove (name : CString) : List CString → Option (List CString)
  | [] => none
  | e :: es => if isEntryOf name e then some es else (remove name es).map (e :: ·)

/-- `unsetenv`. -/
def unsetenv (s : Environment) (name : CString) (memory : Memory) : Option (Environment × ℤ) := do
  let s ← takeOwnership memory.vector s
  match remove name s.entries with
  | some es => some ({ s with environ := some es }, 0)
  | none => some (s, 0)

/-- `putenv`, for a string that is not one of the vector's. -/
def putenv (s : Environment) (string : CString) (memory : Memory) : Option (Environment × ℤ) :=
  if equals ∈ string.bytes then s.setenv string.beforeEquals string.afterEquals true memory
  else s.unsetenv string memory

/-! ## Programs -/

/-- A call of a program. -/
inductive Call where
  | getenv (name : CString)
  | setenv (name value : CString) (overwrite : Bool) (memory : Memory)
  | unsetenv (name : CString) (memory : Memory)
  | putenv (string : CString) (memory : Memory)

/-- What a call returns. -/
inductive Answer where
  /-- A pointer to a value. -/
  | value (v : Option CString)
  /-- Zero, or `-1`. -/
  | status (r : ℤ)

/-- A call and what it returns. -/
def perform (s : Environment) : Call → Option (Environment × Answer)
  | .getenv name => some (s, .value (s.getenv name))
  | .setenv name value overwrite memory =>
    (s.setenv name value overwrite memory).map fun r => (r.1, .status r.2)
  | .unsetenv name memory => (s.unsetenv name memory).map fun r => (r.1, .status r.2)
  | .putenv string memory => (s.putenv string memory).map fun r => (r.1, .status r.2)

/-- One call. -/
def step (s : Environment) (c : Call) : Option Environment := (s.perform c).map Prod.fst

/-! ## The map that it should be -/

/-- What a call is to do with a map. -/
inductive Effect where
  /-- A look at a name. -/
  | look (name : CString)
  /-- A name gets a value, or keeps the one it has. -/
  | assign (name value : CString) (overwrite : Bool)
  /-- A name is removed. -/
  | remove (name : CString)

/-- The name that it is about. -/
def Effect.name : Effect → CString
  | .look name | .assign name _ _ | .remove name => name

/-- What the calls are to do. -/
def Call.effect : Call → Effect
  | .getenv name => .look name
  | .setenv name value overwrite _ => .assign name value overwrite
  | .unsetenv name _ => .remove name
  | .putenv string _ =>
    if equals ∈ string.bytes then .assign string.beforeEquals string.afterEquals true
    else .remove string

/-- The environment before and after a call are those of a map, as far as a name `m` can tell. -/
structure BehavesTo (m : CString) (s : Environment) (e : Effect) (t : Environment) (r : Answer) :
    Prop where
  /-- A look gives the value. -/
  looked : ∀ n, e = .look n → r = .value (s.getenv n)
  /-- What was assigned is there. -/
  assigned : ∀ n v, e = .assign n v true → r = .status 0 → t.getenv n = some v
  /-- What was removed is gone. -/
  removed : ∀ n, e = .remove n → t.getenv n = none
  /-- The other names keep their values. -/
  other : m ≠ e.name → t.getenv m = s.getenv m
  /-- What was not to be overwritten is still there. -/
  kept : ∀ n v w, e = .assign n v false → s.getenv n = some w → t.getenv n = some w
  /-- The entries and the null pointer behind them fit in the vector. -/
  fits : t.owned = true → t.entries.length + 1 ≤ t.allocated

/-- A call treats the environment as a map. -/
def Behaves (m : CString) (s : Environment) (c : Call) : Prop :=
  ∀ t r, s.perform c = some (t, r) → BehavesTo m s c.effect t r

/-- A call that removes a name finds at most one entry of it. -/
def Single (s : Environment) (c : Call) : Prop :=
  ∀ n, c.effect = .remove n → (s.perform c).isSome → s.entries.countP (isEntryOf n) ≤ 1

/-- None of two names is the other one with `=` and more behind it. -/
def Unrelated (m n : CString) : Prop := isEntryOf m n = false ∧ isEntryOf n m = false

/-! ## Which entries belong to a name -/

/-- An entry begins with its name and a `=`. -/
lemma isEntryOf_iff {m e : CString} : isEntryOf m e = true ↔ m.bytes ++ [equals] <+: e.bytes := by
  rw [isEntryOf, List.isPrefixOf_iff_prefix]

/-- A new entry is one of its name. -/
lemma isEntryOf_entry (n v : CString) : isEntryOf n (entry n v) = true := by
  rw [isEntryOf_iff]
  exact ⟨v.bytes, by simp [entry]⟩

/-- It has its value. -/
lemma drop_entry (n v : CString) : (entry n v).drop (n.strlen + 1) = v := by
  apply CString.ext
  simp [CString.drop, entry, strlen, List.drop_append]

/-- No entry of a name is one of an unrelated name. -/
lemma isEntryOf_eq_false {m n e : CString} (hne : m ≠ n) (h : Unrelated m n)
    (hn : isEntryOf n e = true) : isEntryOf m e = false := by
  have hlonger : ∀ {a b : CString}, a ≠ b → a.bytes ++ [equals] <+: b.bytes ++ [equals] →
      isEntryOf a b = true := by
    intro a b hab hpre
    rw [isEntryOf_iff]
    rw [List.prefix_concat_iff] at hpre
    refine hpre.resolve_left fun heq => hab (CString.ext ?_)
    exact List.append_cancel_right heq
  by_contra hm
  rw [Bool.not_eq_false, isEntryOf_iff] at hm
  rw [isEntryOf_iff] at hn
  rcases List.prefix_or_prefix_of_prefix hm hn with hmn | hnm
  · exact absurd (hlonger hne hmn) (by rw [h.1]; decide)
  · exact absurd (hlonger hne.symm hnm) (by rw [h.2]; decide)

/-! ## The vector as a map -/

/-- Nothing is found exactly if there is no entry. -/
lemma find_eq_none_iff {n : CString} {es : List CString} :
    find n es = none ↔ es.countP (isEntryOf n) = 0 := by
  induction es with
  | nil => simp [find]
  | cons e es ih =>
    rw [find, List.countP_cons]
    split_ifs with he
    · simp
    · simpa using ih

/-- Where nothing is replaced, nothing is found. -/
lemma replace_eq_none_iff {n new : CString} {es : List CString} :
    replace n new es = none ↔ find n es = none := by
  induction es with
  | nil => simp [replace, find]
  | cons e es ih =>
    rw [replace, find]
    split_ifs with he
    · simp
    · simpa using ih

/-- What was put in the place of an entry. -/
lemma find_replace {n v : CString} {es es' : List CString}
    (h : replace n (entry n v) es = some es') : find n es' = some v := by
  induction es generalizing es' with
  | nil => exact absurd h nofun
  | cons e es ih =>
    rw [replace] at h
    split_ifs at h with he
    · cases h
      rw [find, if_pos (isEntryOf_entry n v), drop_entry]
    · obtain ⟨rest, hrest, rfl⟩ := Option.map_eq_some_iff.mp h
      rw [find, if_neg he]
      exact ih hrest

/-- The other names are not concerned. -/
lemma find_replace_other {m n v : CString} (hne : m ≠ n) (hmn : Unrelated m n)
    {es es' : List CString} (h : replace n (entry n v) es = some es') :
    find m es' = find m es := by
  induction es generalizing es' with
  | nil => exact absurd h nofun
  | cons e es ih =>
    rw [replace] at h
    split_ifs at h with he
    · cases h
      simp only [find, isEntryOf_eq_false hne hmn (isEntryOf_entry n v),
        isEntryOf_eq_false hne hmn he, Bool.false_eq_true, if_false]
    · obtain ⟨rest, hrest, rfl⟩ := Option.map_eq_some_iff.mp h
      rw [find, find, ih hrest]

/-- A new entry at the end. -/
lemma find_append (m e : CString) (es : List CString) :
    find m (es ++ [e]) = (find m es).or (find m [e]) := by
  induction es with
  | nil => rfl
  | cons d es ih =>
    rw [List.cons_append, find, find]
    split_ifs
    · rfl
    · exact ih

/-- Where nothing is removed, nothing is found. -/
lemma remove_eq_none_iff {n : CString} {es : List CString} :
    remove n es = none ↔ find n es = none := by
  induction es with
  | nil => simp [remove, find]
  | cons e es ih =>
    rw [remove, find]
    split_ifs with he
    · simp
    · simpa using ih

/-- One entry is removed. -/
lemma countP_remove {n : CString} {es es' : List CString} (h : remove n es = some es') :
    es.countP (isEntryOf n) = es'.countP (isEntryOf n) + 1 ∧ es.length = es'.length + 1 := by
  induction es generalizing es' with
  | nil => exact absurd h nofun
  | cons e es ih =>
    rw [remove] at h
    split_ifs at h with he
    · cases h
      exact ⟨by rw [List.countP_cons, if_pos he], rfl⟩
    · obtain ⟨rest, hrest, rfl⟩ := Option.map_eq_some_iff.mp h
      rw [List.countP_cons, List.countP_cons, List.length_cons, List.length_cons, (ih hrest).1,
        (ih hrest).2]
      exact ⟨by omega, rfl⟩

/-- **A removed name is gone** exactly if there was one entry of it. -/
lemma find_remove_iff {n : CString} {es es' : List CString} (h : remove n es = some es') :
    find n es' = none ↔ es.countP (isEntryOf n) ≤ 1 := by
  rw [find_eq_none_iff, (countP_remove h).1]
  omega

/-- The other names are not concerned. -/
lemma find_remove_other {m n : CString} (hne : m ≠ n) (hmn : Unrelated m n)
    {es es' : List CString} (h : remove n es = some es') : find m es' = find m es := by
  induction es generalizing es' with
  | nil => exact absurd h nofun
  | cons e es ih =>
    rw [remove] at h
    split_ifs at h with he
    · cases h
      simp only [find, isEntryOf_eq_false hne hmn he, Bool.false_eq_true, if_false]
    · obtain ⟨rest, hrest, rfl⟩ := Option.map_eq_some_iff.mp h
      rw [find, find, ih hrest]

/-- The entries of a replaced vector are as many. -/
lemma length_replace {n new : CString} {es es' : List CString}
    (h : replace n new es = some es') : es'.length = es.length := by
  induction es generalizing es' with
  | nil => exact absurd h nofun
  | cons e es ih =>
    rw [replace] at h
    split_ifs at h with he
    · cases h
      rfl
    · obtain ⟨rest, hrest, rfl⟩ := Option.map_eq_some_iff.mp h
      rw [List.length_cons, List.length_cons, ih hrest]

/-! ## The calls -/

/-- A look at the vector. -/
lemma getenv_eq (s : Environment) (n : CString) : s.getenv n = find n s.entries := by
  unfold getenv entries
  cases s.environ <;> rfl

/-- The vector of the library has room for its entries and a null pointer. -/
def Capacity (s : Environment) : Prop :=
  s.owned = true → s.allocated = s.cap + 1 ∧ s.entries.length < s.cap

/-- The library takes over the entries. -/
lemma takeOwnership_spec {vector : Bool} {s t : Environment} (hs : Capacity s)
    (h : takeOwnership vector s = some t) :
    t.entries = s.entries ∧ t.allocated = t.cap + 1 ∧ s.entries.length < t.cap := by
  unfold takeOwnership at h
  dsimp only at h
  split_ifs at h with howned hmem
  · cases h
    exact ⟨rfl, hs howned⟩
  · cases h
    exact ⟨rfl, rfl, by dsimp only; omega⟩

/-- There is room for another entry. -/
lemma grow_spec {vector : Bool} {s t : Environment} (hs : s.allocated = s.cap + 1)
    (hfits : s.entries.length < s.cap) (h : grow vector s = some t) :
    t.entries = s.entries ∧ t.allocated = t.cap + 1 ∧ s.entries.length + 1 < t.cap := by
  unfold grow at h
  split_ifs at h with hfull hmem
  · cases h
    exact ⟨rfl, rfl, by dsimp only; omega⟩
  · cases h
    exact ⟨rfl, hs, by omega⟩

/-- **What `setenv` does**: nothing, if there is no memory or the value is to be kept, or it
replaces the first entry, or it adds one. -/
lemma setenv_cases {s t : Environment} {n v : CString} {overwrite : Bool} {memory : Memory} {r : ℤ}
    (hs : Capacity s) (h : s.setenv n v overwrite memory = some (t, r)) :
    Capacity t ∧
      (t.entries = s.entries ∧ (r = -1 ∨ overwrite = false ∧ find n s.entries ≠ none) ∨
        overwrite = true ∧ replace n (entry n v) s.entries = some t.entries ∨
        find n s.entries = none ∧ t.entries = s.entries ++ [entry n v]) := by
  obtain ⟨s₁, hown, h⟩ := Option.bind_eq_some_iff.mp h
  obtain ⟨hentries, hallocated, hfits⟩ := takeOwnership_spec hs hown
  rw [hentries] at h
  cases hreplace : replace n (entry n v) s.entries with
  | some es =>
    have hfound : find n s.entries ≠ none := fun hnone => by
      rw [replace_eq_none_iff.2 hnone] at hreplace
      exact absurd hreplace nofun
    rw [hreplace] at h
    dsimp only at h
    split_ifs at h with hkeep hmem
    · cases h
      exact ⟨fun _ => ⟨hallocated, hentries ▸ hfits⟩,
        .inl ⟨hentries, .inr ⟨by simpa using hkeep, hfound⟩⟩⟩
    · cases h
      exact ⟨fun _ => ⟨hallocated, hentries ▸ hfits⟩, .inl ⟨hentries, .inl rfl⟩⟩
    · cases h
      have hlen := length_replace hreplace
      exact ⟨fun _ => ⟨hallocated, by simpa [entries, hlen] using hfits⟩,
        .inr (.inl ⟨by simpa using hkeep, rfl⟩)⟩
  | none =>
    rw [hreplace] at h
    obtain ⟨s₂, hgrow, h⟩ := Option.bind_eq_some_iff.mp h
    obtain ⟨hentries₂, hallocated₂, hfits₂⟩ := grow_spec hallocated (hentries ▸ hfits) hgrow
    rw [hentries] at hentries₂ hfits₂
    split_ifs at h with hmem
    · cases h
      exact ⟨fun _ => ⟨hallocated₂, by rw [hentries₂]; omega⟩, .inl ⟨hentries₂, .inl rfl⟩⟩
    · cases h
      have hadded : ({ s₂ with environ := some (s₂.entries ++ [entry n v]) } :
          Environment).entries = s.entries ++ [entry n v] := by rw [← hentries₂]; rfl
      refine ⟨fun _ => ⟨hallocated₂, ?_⟩, .inr (.inr ⟨replace_eq_none_iff.1 hreplace, hadded⟩)⟩
      rw [hadded, List.length_append, List.length_singleton]
      exact hfits₂

/-- **What `unsetenv` does**: it removes the first entry, if there is one. -/
lemma unsetenv_cases {s t : Environment} {n : CString} {memory : Memory} {r : ℤ}
    (hs : Capacity s) (h : s.unsetenv n memory = some (t, r)) :
    Capacity t ∧ (remove n s.entries = some t.entries ∨
      find n s.entries = none ∧ t.entries = s.entries) := by
  obtain ⟨s₁, hown, h⟩ := Option.bind_eq_some_iff.mp h
  obtain ⟨hentries, hallocated, hfits⟩ := takeOwnership_spec hs hown
  rw [hentries] at h
  cases hremove : remove n s.entries with
  | some es =>
    rw [hremove] at h
    cases h
    have hlen := (countP_remove hremove).2
    have hless : es.length < s₁.cap := by omega
    exact ⟨fun _ => ⟨hallocated, hless⟩, .inl rfl⟩
  | none =>
    rw [hremove] at h
    cases h
    exact ⟨fun _ => ⟨hallocated, hentries ▸ hfits⟩, .inr ⟨remove_eq_none_iff.1 hremove, hentries⟩⟩

/-- What the calls do, by their effect. -/
lemma perform_cases {s t : Environment} {c : Call} {r : Answer}
    (h : s.perform c = some (t, r)) :
    (∃ n, c.effect = .look n ∧ t = s ∧ r = .value (s.getenv n)) ∨
    (∃ n v overwrite memory k, c.effect = .assign n v overwrite ∧ r = .status k ∧
      s.setenv n v overwrite memory = some (t, k)) ∨
    (∃ n memory k, c.effect = .remove n ∧ s.unsetenv n memory = some (t, k)) := by
  cases c with
  | getenv n =>
    cases h
    exact .inl ⟨n, rfl, rfl, rfl⟩
  | setenv n v overwrite memory =>
    obtain ⟨⟨t', k⟩, hk, he⟩ := Option.map_eq_some_iff.mp h
    cases he
    exact .inr (.inl ⟨n, v, overwrite, memory, k, rfl, rfl, hk⟩)
  | unsetenv n memory =>
    obtain ⟨⟨t', k⟩, hk, he⟩ := Option.map_eq_some_iff.mp h
    cases he
    exact .inr (.inr ⟨n, memory, k, rfl, hk⟩)
  | putenv string memory =>
    obtain ⟨⟨t', k⟩, hk, he⟩ := Option.map_eq_some_iff.mp h
    cases he
    unfold putenv at hk
    split_ifs at hk with heq
    · exact .inr (.inl ⟨_, _, _, memory, k, if_pos heq, rfl, hk⟩)
    · exact .inr (.inr ⟨_, memory, k, if_neg heq, hk⟩)

/-- **The vector stays within its memory.** -/
theorem capacity_step {s t : Environment} {c : Call} (hs : Capacity s) (h : s.step c = some t) :
    Capacity t := by
  obtain ⟨⟨t', r⟩, hperform, rfl⟩ := Option.map_eq_some_iff.mp h
  rcases perform_cases hperform with ⟨n, -, rfl, -⟩ | ⟨n, v, overwrite, memory, k, -, -, hset⟩ |
    ⟨n, memory, k, -, hunset⟩
  · exact hs
  · exact (setenv_cases hs hset).1
  · exact (unsetenv_cases hs hunset).1

/-- A capacity is kept by the entries and the null pointer. -/
lemma Capacity.fits {s : Environment} (h : Capacity s) (howned : s.owned = true) :
    s.entries.length + 1 ≤ s.allocated := by
  have hcap := h howned
  omega

/-- **Assigning is as with a map.** -/
lemma behavesTo_assign {m : CString} {s t : Environment} {n v : CString} {overwrite : Bool}
    {memory : Memory} {k : ℤ} (hs : Capacity s) (hmn : m ≠ n → Unrelated m n)
    (h : s.setenv n v overwrite memory = some (t, k)) :
    BehavesTo m s (.assign n v overwrite) t (.status k) := by
  obtain ⟨hcap, hcases⟩ := setenv_cases hs h
  have hnew : ∀ {es : List CString}, find n es = none → find n (es ++ [entry n v]) = some v := by
    intro es hnone
    rw [find_append, hnone, find, if_pos (isEntryOf_entry n v), drop_entry]
    rfl
  refine ⟨nofun, ?_, nofun, ?_, ?_, hcap.fits⟩
  · rintro n' v' heff hstatus
    cases heff
    cases hstatus
    rw [getenv_eq]
    rcases hcases with ⟨-, hfail | ⟨hkeep, -⟩⟩ | ⟨-, hreplace⟩ | ⟨hnone, hentries⟩
    · exact absurd hfail (by decide)
    · exact absurd hkeep (by decide)
    · exact find_replace hreplace
    · rw [hentries]
      exact hnew hnone
  · intro hne
    rw [getenv_eq, getenv_eq]
    rcases hcases with ⟨hsame, -⟩ | ⟨-, hreplace⟩ | ⟨-, hentries⟩
    · rw [hsame]
    · exact find_replace_other hne (hmn hne) hreplace
    · rw [hentries, find_append, find, isEntryOf_eq_false hne (hmn hne) (isEntryOf_entry n v)]
      cases find m s.entries <;> rfl
  · rintro n' v' w heff hw
    cases heff
    rw [getenv_eq] at hw ⊢
    rcases hcases with ⟨hsame, -⟩ | ⟨hover, -⟩ | ⟨hnone, -⟩
    · rw [hsame, hw]
    · exact absurd hover (by decide)
    · rw [hnone] at hw
      exact absurd hw nofun

/-- **Removing is as with a map** exactly if there is at most one entry. -/
lemma behavesTo_remove_iff {m : CString} {s t : Environment} {n : CString} {memory : Memory} {k : ℤ}
    (hs : Capacity s) (hmn : m ≠ n → Unrelated m n) (h : s.unsetenv n memory = some (t, k))
    (r : Answer) :
    BehavesTo m s (.remove n) t r ↔ s.entries.countP (isEntryOf n) ≤ 1 := by
  obtain ⟨hcap, hcases⟩ := unsetenv_cases hs h
  have hgone : t.getenv n = none ↔ s.entries.countP (isEntryOf n) ≤ 1 := by
    rw [getenv_eq]
    rcases hcases with hremove | ⟨hnone, hentries⟩
    · exact find_remove_iff hremove
    · rw [hentries]
      exact ⟨fun _ => by rw [find_eq_none_iff.mp hnone]; omega, fun _ => hnone⟩
  constructor
  · intro hbehaves
    exact hgone.mp (hbehaves.removed n rfl)
  · intro hsingle
    refine ⟨nofun, nofun, ?_, ?_, nofun, hcap.fits⟩
    · rintro n' heff
      cases heff
      exact hgone.mpr hsingle
    · intro hne
      rw [getenv_eq, getenv_eq]
      rcases hcases with hremove | ⟨-, hentries⟩
      · exact find_remove_other hne (hmn hne) hremove
      · rw [hentries]

/-- A call is as with a map exactly if it is no removal of a name that has more than one entry. -/
lemma behaves_iff_single {m : CString} {s : Environment} {c : Call} (hs : Capacity s)
    (hmn : m ≠ c.effect.name → Unrelated m c.effect.name) : Behaves m s c ↔ Single s c := by
  unfold Behaves Single
  cases hperform : s.perform c with
  | none => simp
  | some tr =>
    obtain ⟨t, r⟩ := tr
    have hone : (∀ t' r', some (t, r) = some (t', r') → BehavesTo m s c.effect t' r') ↔
        BehavesTo m s c.effect t r := by
      constructor
      · exact fun h => h t r rfl
      · rintro h t' r' heq
        cases heq
        exact h
    rw [hone]
    rcases perform_cases hperform with ⟨n, heff, rfl, rfl⟩ |
      ⟨n, v, overwrite, memory, k, heff, rfl, hset⟩ | ⟨n, memory, k, heff, hunset⟩
    · rw [heff]
      refine iff_of_true ⟨?_, nofun, nofun, fun _ => rfl, nofun, hs.fits⟩ nofun
      rintro n' heq
      cases heq
      rfl
    · rw [heff] at hmn ⊢
      exact iff_of_true (behavesTo_assign hs hmn hset) nofun
    · rw [heff] at hmn ⊢
      have hremove : BehavesTo m s (.remove n) t r ↔ s.entries.countP (isEntryOf n) ≤ 1 :=
        behavesTo_remove_iff hs hmn hunset r
      rw [hremove]
      simp

/-- **The environment is a map** in a run, as far as a name can tell that is unrelated to the other
names of the run, exactly if no removal finds more than one entry of its name. -/
theorem behaves_iff {m : CString} {s : Environment} {calls : List Call} (hs : s.owned = false)
    (hnames : ∀ c ∈ calls, m ≠ c.effect.name → Unrelated m c.effect.name) :
    Transition.Along step (Behaves m) s calls ↔ Transition.Along step Single s calls := by
  have hcap : Capacity s := fun howned => absurd (hs ▸ howned) (by decide)
  clear hs
  induction calls generalizing s with
  | nil => exact Iff.rfl
  | cons c calls ih =>
    unfold Transition.Along
    rw [behaves_iff_single hcap (hnames c List.mem_cons_self)]
    refine and_congr_right fun _ => forall_congr' fun t => forall_congr' fun ht => ?_
    exact ih (fun d hd => hnames d (List.mem_cons_of_mem c hd)) (capacity_step hcap ht)

/-- An environment as it is inherited. -/
def inherited (es : List CString) : Environment := ⟨some es, false, 0, 0⟩

/-- A name that was inherited once is removed. -/
theorem behaves_iff_once :
    Transition.Along step (Behaves (.ofBytes (ascii "B")))
      (inherited [.ofBytes (ascii "A=1"), .ofBytes (ascii "B=2")])
      [.unsetenv (.ofBytes (ascii "A")) ⟨true, true⟩] := by
  refine (behaves_iff rfl ?_).mpr ⟨?_, fun _ _ => trivial⟩
  · intro c hc _
    rw [List.mem_singleton.mp hc]
    exact ⟨by decide, by decide⟩
  · rintro n hn -
    cases hn
    decide

/-- **A name that was inherited twice** is still there after it was removed. -/
theorem not_behaves_twice :
    ¬∀ (m : CString) (s : Environment) (calls : List Call), s.owned = false →
      (∀ e ∈ s.entries, ∃ n v, n.bytes ≠ [] ∧ e = entry n v) → m.bytes ≠ [] →
      (∀ c ∈ calls, c.effect.name.bytes ≠ []) → Transition.Along step (Behaves m) s calls := by
  intro h
  have hone : (.ofBytes (ascii "A=1") : CString) = entry (.ofBytes (ascii "A")) (.ofBytes (ascii "1")) ∧
      (.ofBytes (ascii "A=2") : CString) = entry (.ofBytes (ascii "A")) (.ofBytes (ascii "2")) := by
    decide
  have hrun := h (.ofBytes (ascii "B")) (inherited [.ofBytes (ascii "A=1"), .ofBytes (ascii "A=2")])
    [.unsetenv (.ofBytes (ascii "A")) ⟨true, true⟩] rfl ?_ (by decide) ?_
  · have hgone := (hrun.1 _ _ rfl).removed _ rfl
    exact absurd hgone (by decide)
  · intro e he
    rcases List.mem_cons.mp he with rfl | he
    · exact ⟨_, _, by decide, hone.1⟩
    · rw [List.mem_singleton.mp he]
      exact ⟨_, _, by decide, hone.2⟩
  · intro c hc
    rw [List.mem_singleton.mp hc]
    decide

end Environment

end Asteros.Libc
