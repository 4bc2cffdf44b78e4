import Asteros.Lib.Transition
import Asteros.Launchd.Daemons
import Mathlib.Order.Nat

set_option autoImplicit false

/-!
# Whom `launchd` signals

The signals of `lc_stop`, `lc_unload` and `do_shutdown` go to the pid that an entry of the table
has. The main loop sets it to zero when it reaps the child, but only in an entry that is not
unloaded: the pid of an entry that is unloaded stays after the child is reaped. `lc_stop` and
`lc_unload` find no such entry, as `find_by_pid` and `running_count` do not, but `do_shutdown` goes
through all entries, and signals whoever has got the pid by then.

Each operation is one step here. The kernel may give a pid that is free to any process.

## Main definitions

* `System`, `operate` — the operations.
* `kills` — the signals that an operation sends.
* `NoStrays` — no shutdown comes after the reaping of an unloaded child.

## Main results

* `killsOwn_iff` — the signals go to children of their entries exactly in the runs of that kind.
* `not_killsOwn` — a run that signals a stranger.
-/

namespace Asteros.Launchd.Daemons

open Function

/-- The table and the processes. -/
structure System where
  /-- The table. -/
  table : Table
  /-- The processes. -/
  procs : Procs
  /-- `do_shutdown` was called. -/
  down : Bool
  /-- History: the child of the entry was reaped when the entry was unloaded, and there has been no
  other since. -/
  stray : ℕ → Bool

/-- An operation. Where a process may be spawned there is the pid that `fork` returns, if it does
not fail. -/
inductive Operation where
  /-- One pass of the loop of `load_all_daemons`, with a configuration that could be read. -/
  | loadAtBoot (cfg : DaemonConfig)
  /-- One pass of the loop of `start_runatload_daemons`. -/
  | startRunAtLoad (i : ℕ) (fork : Option ℕ)
  /-- `lc_load`, with a configuration that could be read. -/
  | load (cfg : DaemonConfig) (fork : Option ℕ)
  /-- `lc_start`. -/
  | start (label : String) (fork : Option ℕ)
  /-- `lc_stop`. -/
  | stop (label : String)
  /-- `lc_unload`. -/
  | unload (label : String)
  /-- A process exits. -/
  | exit (pid : ℕ)
  /-- One pass of the main loop: a process is reaped, and its daemon spawned again. -/
  | reap (pid : ℕ) (fork : Option ℕ)
  /-- `do_shutdown` as far as its loop. -/
  | shutdown
  /-- One pass of the loop of `do_shutdown`. -/
  | drain (pid : ℕ)
  /-- A process appears that is none of `launchd`. -/
  | appear (pid : ℕ)
  /-- Such a process is gone. -/
  | vanish (pid : ℕ)

/-- `spawn_daemon`. The pid of a new process is free. -/
def spawnDaemon (s : System) (i : ℕ) : Option ℕ → Option System
  | none => some s
  | some pid =>
    if 0 < pid ∧ s.procs pid = none then
      some { s with
        table := s.table.setPid i pid
        procs := update s.procs pid (some ⟨some i, false⟩)
        stray := update s.stray i false }
    else none

/-- `wait4`: the process is gone, and whose it was in the table is not looked at. -/
def wait4 (s : System) (pid : ℕ) : Option System :=
  if 0 < pid ∧ ((s.procs pid).any Proc.exited) = true then
    some { s with
      procs := update s.procs pid none
      stray := fun i => s.stray i || decide (i < s.table.ndaemons) && (s.table.daemons i).unloaded &&
        (s.table.daemons i).pid == pid }
  else none

/-- One operation. -/
def operate (s : System) : Operation → Option System
  | .loadAtBoot cfg =>
    if s.table.ndaemons < maxDaemons then some { s with table := s.table.append cfg } else some s
  | .startRunAtLoad i fork =>
    if i < s.table.ndaemons ∧ (s.table.daemons i).cfg.runAtLoad = true then spawnDaemon s i fork
    else some s
  | .load cfg fork =>
    if (s.table.findByLabel cfg.label).isSome ∨ maxDaemons ≤ s.table.ndaemons then some s
    else
      let s' := { s with table := s.table.append cfg }
      if cfg.runAtLoad then spawnDaemon s' s.table.ndaemons fork else some s'
  | .start label fork =>
    match s.table.findByLabel label with
    | none => some s
    | some i => if 0 < (s.table.daemons i).pid then some s else spawnDaemon s i fork
  | .stop _ => some s
  | .unload label =>
    match s.table.findByLabel label with
    | none => some s
    | some i => some { s with table := s.table.setUnloaded i }
  | .exit pid =>
    match s.procs pid with
    | none => none
    | some p => some { s with procs := update s.procs pid (some { p with exited := true }) }
  | .reap pid fork =>
    if s.down then none
    else
      match wait4 s pid with
      | none => none
      | some s₁ =>
        match s₁.table.findByPid pid with
        | none => some s₁
        | some i =>
          let s₂ := { s₁ with table := s₁.table.setPid i 0 }
          if (s₁.table.daemons i).cfg.keepAlive then spawnDaemon s₂ i fork else some s₂
  | .shutdown => if s.down then none else some { s with down := true }
  | .drain pid =>
    if s.down then
      match wait4 s pid with
      | none => none
      | some s₁ =>
        match s₁.table.findByPid pid with
        | none => some s₁
        | some i => some { s₁ with table := s₁.table.setPid i 0 }
    else none
  | .appear pid =>
    if s.procs pid = none then some { s with procs := update s.procs pid (some ⟨none, false⟩) }
    else none
  | .vanish pid =>
    match s.procs pid with
    | some ⟨none, _⟩ => some { s with procs := update s.procs pid none }
    | _ => none

/-- The signals that an operation sends, each with its entry and its pid. -/
def kills (s : System) : Operation → List (ℕ × ℕ)
  | .stop label | .unload label =>
    match s.table.findByLabel label with
    | none => []
    | some i => if 0 < (s.table.daemons i).pid then [(i, (s.table.daemons i).pid)] else []
  | .shutdown =>
    ((List.range s.table.ndaemons).filter fun i => 0 < (s.table.daemons i).pid).map fun i =>
      (i, (s.table.daemons i).pid)
  | _ => []

/-- Every signal goes to a child that was spawned for its entry and has not been reaped. -/
def KillsOwn (s : System) (op : Operation) : Prop := ∀ k ∈ kills s op, Owns s.procs k.1 k.2

instance : DecidableRel KillsOwn := fun s op =>
  inferInstanceAs (Decidable (∀ k ∈ kills s op, _))

/-- When `do_shutdown` begins, no child of an unloaded entry has been reaped. -/
def NoStrays (s : System) : Operation → Prop
  | .shutdown => ∀ i < s.table.ndaemons, s.stray i = false
  | _ => True

/-- Before the first entry is loaded, with the pids that are in use. -/
def boot (busy : ℕ → Bool) : System where
  table := ⟨fun _ => ⟨⟨"", false, false⟩, 0, false⟩, 0⟩
  procs pid := if busy pid then some ⟨none, false⟩ else none
  down := false
  stray _ := false

/-! ## The invariant -/

/-- Every entry with a pid has the child with that pid, unless the entry is unloaded and the child
was reaped. -/
structure Tracked (s : System) : Prop where
  /-- The child of an entry. -/
  own : ∀ i < s.table.ndaemons, 0 < (s.table.daemons i).pid →
    Owns s.procs i (s.table.daemons i).pid ∨ s.stray i = true
  /-- An entry whose child was reaped. -/
  stray : ∀ i, s.stray i = true → i < s.table.ndaemons ∧ (s.table.daemons i).unloaded = true ∧
    0 < (s.table.daemons i).pid ∧ ¬Owns s.procs i (s.table.daemons i).pid
  /-- Children are spawned for entries in use. -/
  known : ∀ i pid, Owns s.procs i pid → i < s.table.ndaemons

variable {s s' : System} {i j pid : ℕ}

/-- A process has one owner. -/
lemma Owns.unique {procs : Procs} (h : Owns procs i pid) (h' : Owns procs j pid) : i = j :=
  Option.some.inj (h.symm.trans h')

/-- An entry that is not unloaded has its child. -/
lemma Tracked.owns (h : Tracked s) (hi : i < s.table.ndaemons)
    (hu : (s.table.daemons i).unloaded = false) (hp : 0 < (s.table.daemons i).pid) :
    Owns s.procs i (s.table.daemons i).pid := by
  refine (h.own i hi hp).resolve_right fun hs => ?_
  rw [(h.stray i hs).2.1] at hu
  cases hu

/-- Nothing is tracked at first. -/
lemma tracked_boot (busy : ℕ → Bool) : Tracked (boot busy) := by
  refine ⟨fun i hi => absurd hi (Nat.not_lt_zero i), nofun, fun i pid h => ?_⟩
  simp only [Owns, boot] at h
  split at h <;> cases h

/-- A process that changes without changing its owner. -/
lemma Tracked.procs (h : Tracked s) {procs : Procs}
    (howner : ∀ i pid, Owns procs i pid ↔ Owns s.procs i pid) : Tracked { s with procs := procs } :=
  ⟨fun i hi hp => (h.own i hi hp).imp_left (howner _ _).mpr,
    fun i hs => ⟨(h.stray i hs).1, (h.stray i hs).2.1, (h.stray i hs).2.2.1,
      fun ho => (h.stray i hs).2.2.2 ((howner _ _).mp ho)⟩,
    fun i pid ho => h.known i pid ((howner i pid).mp ho)⟩

/-- **A spawn** gives the entry its child. -/
lemma Tracked.spawn (h : Tracked s) (hi : i < s.table.ndaemons) {fork : Option ℕ}
    (hs : spawnDaemon s i fork = some s') : Tracked s' := by
  cases fork with
  | none =>
    rw [spawnDaemon] at hs
    cases hs
    exact h
  | some pid =>
    rw [spawnDaemon, Option.ite_none_right_eq_some] at hs
    obtain ⟨⟨hpos, hfree⟩, hs⟩ := hs
    cases hs
    have howns : ∀ j q, Owns (update s.procs pid (some ⟨some i, false⟩)) j q ↔
        (q = pid ∧ j = i) ∨ (q ≠ pid ∧ Owns s.procs j q) := by
      intro j q
      rw [Owns]
      rcases eq_or_ne q pid with rfl | hq
      · rw [update_self]
        simp [eq_comm]
      · rw [update_of_ne hq]
        simp [hq, Owns]
    have hnone : ∀ j, ¬Owns s.procs j pid := fun j ho => by
      rw [Owns, hfree] at ho
      cases ho
    constructor
    · intro j hj hp
      dsimp only at hj hp ⊢
      rcases eq_or_ne j i with rfl | hne
      · rw [Table.setPid_pid_self]
        exact .inl ((howns j pid).mpr (.inl ⟨rfl, rfl⟩))
      · rw [Table.setPid_of_ne hne] at hp ⊢
        rw [update_of_ne hne]
        refine (h.own j hj hp).imp_left fun ho => (howns _ _).mpr (.inr ⟨?_, ho⟩)
        intro heq
        exact hnone j (heq ▸ ho)
    · intro j hstray
      dsimp only at hstray ⊢
      rcases eq_or_ne j i with rfl | hne
      · rw [update_self] at hstray
        cases hstray
      · rw [update_of_ne hne] at hstray
        rw [Table.setPid_of_ne hne]
        obtain ⟨hlt, hu, hp, hno⟩ := h.stray j hstray
        refine ⟨hlt, hu, hp, fun ho => ?_⟩
        rcases (howns _ _).mp ho with ⟨-, hji⟩ | ⟨-, ho⟩
        · exact hne hji
        · exact hno ho
    · intro j q ho
      rcases (howns j q).mp ho with ⟨-, rfl⟩ | ⟨-, ho⟩
      · exact hi
      · exact h.known j q ho

/-- A new entry has no child. -/
lemma Tracked.append (h : Tracked s) (cfg : DaemonConfig) :
    Tracked { s with table := s.table.append cfg } := by
  constructor
  · intro i hi hp
    dsimp only [Table.append_ndaemons] at hi hp ⊢
    rcases eq_or_ne i s.table.ndaemons with rfl | hne
    · rw [Table.append_self] at hp
      cases hp
    · rw [Table.append_of_ne cfg hne] at hp ⊢
      exact h.own i (by omega) hp
  · intro i hs
    obtain ⟨hlt, hu, hp, hno⟩ := h.stray i hs
    dsimp only [Table.append_ndaemons]
    rw [Table.append_of_ne cfg hlt.ne]
    exact ⟨by omega, hu, hp, hno⟩
  · intro i pid ho
    exact (h.known i pid ho).trans (Nat.lt_succ_self _)

/-- An entry that is unloaded keeps its child. -/
lemma Tracked.setUnloaded (h : Tracked s) (i : ℕ) :
    Tracked { s with table := s.table.setUnloaded i } := by
  constructor
  · intro j hj hp
    dsimp only at hj hp ⊢
    rw [Table.setUnloaded_pid] at hp ⊢
    exact h.own j hj hp
  · intro j hs
    obtain ⟨hlt, hu, hp, hno⟩ := h.stray j hs
    dsimp only
    rw [Table.setUnloaded_pid]
    refine ⟨hlt, ?_, hp, hno⟩
    rcases eq_or_ne j i with rfl | hne
    · exact Table.setUnloaded_self
    · rwa [Table.setUnloaded_of_ne hne]
  · exact h.known

/-- **A reaping**: the entry of the child has no pid afterwards, or is unloaded and marked.

**Proof sketch.** The owner of the child is the only entry that is not unloaded and has the pid, so
that the search finds it, and nothing if the owner is unloaded. -/
lemma Tracked.reap (h : Tracked s) {s₁ : System} (hs : wait4 s pid = some s₁) :
    (s₁.table.findByPid pid = none → Tracked s₁) ∧
      ∀ i, s₁.table.findByPid pid = some i →
        i < s₁.table.ndaemons ∧ Tracked { s₁ with table := s₁.table.setPid i 0 } := by
  rw [wait4, Option.ite_none_right_eq_some] at hs
  obtain ⟨⟨hpos, -⟩, hs⟩ := hs
  cases hs
  dsimp only
  have howns : ∀ j q, Owns (update s.procs pid none) j q ↔ q ≠ pid ∧ Owns s.procs j q := by
    intro j q
    rw [Owns]
    rcases eq_or_ne q pid with rfl | hq
    · rw [update_self]
      simp
    · rw [update_of_ne hq]
      simp [hq, Owns]
  have hmark : ∀ j, (s.stray j || decide (j < s.table.ndaemons) && (s.table.daemons j).unloaded &&
      (s.table.daemons j).pid == pid) = true ↔ s.stray j = true ∨ (j < s.table.ndaemons ∧
        (s.table.daemons j).unloaded = true) ∧ (s.table.daemons j).pid = pid := by
    intro j
    simp
  have hstray : ∀ j, s.stray j = true ∨ (j < s.table.ndaemons ∧
      (s.table.daemons j).unloaded = true) ∧ (s.table.daemons j).pid = pid →
      j < s.table.ndaemons ∧ (s.table.daemons j).unloaded = true ∧ 0 < (s.table.daemons j).pid ∧
        ¬Owns (update s.procs pid none) j (s.table.daemons j).pid := by
    rintro j (hj | ⟨⟨hlt, hu⟩, hp⟩)
    · obtain ⟨hlt, hu, hp, hno⟩ := h.stray j hj
      exact ⟨hlt, hu, hp, fun ho => hno ((howns _ _).mp ho).2⟩
    · exact ⟨hlt, hu, hp ▸ hpos, fun ho => ((howns _ _).mp ho).1 hp⟩
  constructor
  · intro hnone
    refine ⟨fun j hj hp => ?_, fun j hs => hstray j ((hmark j).mp hs),
      fun j q ho => h.known j q ((howns j q).mp ho).2⟩
    rcases h.own j hj hp with ho | hs
    · by_cases hq : (s.table.daemons j).pid = pid
      · have hu : (s.table.daemons j).unloaded = true := by
          by_contra hu
          exact Table.findByPid_none hnone hj (by simpa using hu) hq
        exact .inr ((hmark j).mpr (.inr ⟨⟨hj, hu⟩, hq⟩))
      · exact .inl ((howns _ _).mpr ⟨hq, ho⟩)
    · exact .inr ((hmark j).mpr (.inl hs))
  · intro i hfind
    obtain ⟨hi, hu, hp⟩ := Table.findByPid_some hfind
    have hown := h.owns hi hu (hp.symm ▸ hpos)
    refine ⟨hi, fun j hj hjp => ?_, fun j hs => ?_, fun j q ho => h.known j q ((howns j q).mp ho).2⟩
    · dsimp only at hj hjp ⊢
      have hne : j ≠ i := by
        rintro rfl
        rw [Table.setPid_pid_self] at hjp
        cases hjp
      rw [Table.setPid_of_ne hne] at hjp ⊢
      rcases h.own j hj hjp with ho | hs
      · by_cases hq : (s.table.daemons j).pid = pid
        · rw [hq] at ho
          rw [hp] at hown
          exact absurd (ho.unique hown) hne
        · exact .inl ((howns _ _).mpr ⟨hq, ho⟩)
      · exact .inr ((hmark j).mpr (.inl hs))
    · have hj := hstray j ((hmark j).mp hs)
      have hne : j ≠ i := by
        rintro rfl
        rw [hu] at hj
        cases hj.2.1
      dsimp only
      rw [Table.setPid_of_ne hne]
      exact hj

/-- **Every operation keeps track of the children.** -/
theorem Tracked.operate {op : Operation} (h : Tracked s) (hs : operate s op = some s') :
    Tracked s' := by
  cases op with
  | loadAtBoot cfg =>
    rw [Daemons.operate] at hs
    split at hs <;> cases hs
    · exact h.append cfg
    · exact h
  | startRunAtLoad i fork =>
    rw [Daemons.operate] at hs
    split at hs
    · next hok => exact h.spawn hok.1 hs
    · cases hs
      exact h
  | load cfg fork =>
    rw [Daemons.operate] at hs
    split at hs
    · cases hs
      exact h
    · dsimp only at hs
      split at hs
      · exact (h.append cfg).spawn (Nat.lt_succ_self _) hs
      · cases hs
        exact h.append cfg
  | start label fork =>
    rw [Daemons.operate] at hs
    split at hs
    · cases hs
      exact h
    · next i hfind =>
      split at hs
      · cases hs
        exact h
      · exact h.spawn (Table.findByLabel_some hfind).1 hs
  | stop label =>
    rw [Daemons.operate] at hs
    cases hs
    exact h
  | unload label =>
    rw [Daemons.operate] at hs
    split at hs <;> cases hs
    · exact h
    · exact h.setUnloaded _
  | exit pid =>
    rw [Daemons.operate] at hs
    split at hs <;> cases hs
    next p hp =>
    refine h.procs fun i q => ?_
    rw [Owns, Owns]
    rcases eq_or_ne q pid with rfl | hq
    · rw [update_self, hp]
      rfl
    · rw [update_of_ne hq]
  | reap pid fork =>
    rw [Daemons.operate] at hs
    split at hs
    · cases hs
    split at hs
    · cases hs
    next s₁ hwait =>
    obtain ⟨hnone, hsome⟩ := h.reap hwait
    split at hs
    · next hfind =>
      cases hs
      exact hnone hfind
    · next i hfind =>
      obtain ⟨hlt, h₂⟩ := hsome i hfind
      dsimp only at hs
      split at hs
      · exact h₂.spawn hlt hs
      · cases hs
        exact h₂
  | shutdown =>
    rw [Daemons.operate] at hs
    split at hs <;> cases hs
    exact ⟨h.own, h.stray, h.known⟩
  | drain pid =>
    rw [Daemons.operate] at hs
    split at hs
    · split at hs
      · cases hs
      next s₁ hwait =>
      obtain ⟨hnone, hsome⟩ := h.reap hwait
      split at hs
      · next hfind =>
        cases hs
        exact hnone hfind
      · next i hfind =>
        cases hs
        exact (hsome i hfind).2
    · cases hs
  | appear pid =>
    rw [Daemons.operate] at hs
    split at hs <;> cases hs
    next hfree =>
    refine h.procs fun i q => ?_
    rw [Owns, Owns]
    rcases eq_or_ne q pid with rfl | hq
    · rw [update_self, hfree]
      rfl
    · rw [update_of_ne hq]
  | vanish pid =>
    rw [Daemons.operate] at hs
    split at hs <;> cases hs
    next e hp =>
    refine h.procs fun i q => ?_
    rw [Owns, Owns]
    rcases eq_or_ne q pid with rfl | hq
    · rw [update_self, hp]
      rfl
    · rw [update_of_ne hq]

/-! ## Signals -/

/-- **An operation signals children of their entries** exactly when it is not a shutdown behind the
reaping of an unloaded child. -/
lemma Tracked.kills_iff (h : Tracked s) (op : Operation) : KillsOwn s op ↔ NoStrays s op := by
  have hlabel : ∀ label, ∀ k ∈ kills s (.stop label), Owns s.procs k.1 k.2 := by
    intro label k hk
    simp only [kills] at hk
    split at hk
    · cases hk
    · next i hfind =>
      obtain ⟨hi, hu, -⟩ := Table.findByLabel_some hfind
      split at hk
      · next hp =>
        obtain rfl := List.mem_singleton.mp hk
        exact h.owns hi hu hp
      · cases hk
  cases op with
  | stop label => exact iff_of_true (hlabel label) trivial
  | unload label => exact iff_of_true (hlabel label) trivial
  | shutdown =>
    have hmem : ∀ k, k ∈ kills s .shutdown ↔ ∃ i < s.table.ndaemons,
        0 < (s.table.daemons i).pid ∧ (i, (s.table.daemons i).pid) = k := by
      intro k
      simp [kills, and_assoc]
    constructor
    · intro hk i _
      by_contra hs
      obtain ⟨hi, -, hp, hno⟩ := h.stray i (by simpa using hs)
      exact hno (hk _ ((hmem _).mpr ⟨i, hi, hp, rfl⟩))
    · intro hno k hk
      obtain ⟨i, hi, hp, rfl⟩ := (hmem k).mp hk
      refine (h.own i hi hp).resolve_right ?_
      rw [hno i hi]
      exact Bool.false_ne_true
  | loadAtBoot _ | startRunAtLoad _ _ | load _ _ | start _ _ | exit _ | reap _ _ | drain _
  | appear _ | vanish _ => exact iff_of_true nofun trivial

/-- **Whom `launchd` signals**: in a run of operations, with pids that the kernel gives away again
once they are free, every signal goes to a child that was spawned for its entry and has not been
reaped exactly if `do_shutdown` never begins behind the reaping of the child of an unloaded entry.

**Proof sketch.** An entry with a pid has the child with that pid, unless it is unloaded and the
child was reaped: a reaping finds the entry of the child if that is not unloaded. `lc_stop` and
`lc_unload` find entries that are not unloaded. -/
theorem killsOwn_iff (busy : ℕ → Bool) (ops : List Operation) :
    Transition.Along operate KillsOwn (boot busy) ops ↔
      Transition.Along operate NoStrays (boot busy) ops :=
  Transition.along_iff (fun _ _ _ h hs => h.operate hs) (fun _ op h => h.kills_iff op)
    (tracked_boot busy) ops

/-- **A stranger is signalled**: a daemon is started and unloaded, its child exits and is reaped,
another process gets the pid, and `launchd` shuts down. -/
theorem not_killsOwn :
    (Transition.exec operate (boot fun _ => false)
        [.loadAtBoot ⟨"d", true, true⟩, .startRunAtLoad 0 (some 7), .unload "d", .exit 7,
          .reap 7 none, .appear 7, .shutdown]).isSome = true ∧
      ¬Transition.Along operate KillsOwn (boot fun _ => false)
        [.loadAtBoot ⟨"d", true, true⟩, .startRunAtLoad 0 (some 7), .unload "d", .exit 7,
          .reap 7 none, .appear 7, .shutdown] := by
  decide +kernel

end Asteros.Launchd.Daemons
