import Asteros.Lib.Transition
import Asteros.Launchd.Threads

set_option autoImplicit false

/-!
# Supervision

An entry has at most one child, and its pid says which, as long as one thread at a time works on the
table. That is so in the runs in which the main loop does not overlap a section of the control
thread, which its lock would see to if the main loop took it.

## Main definitions

* `Supervised` — what the table says of the children.
* `Locked` — the steps that respect the lock.
* `Inv` — the invariant.

## Main results

* `supervised_of_locked` — the children are supervised in the runs whose steps respect the lock.
* `not_supervised` — runs in which they are not.
-/

namespace Asteros.Launchd.Supervision

open Function Daemons

/-! ## Table and children -/

/-- A child of the entry that has not exited. -/
def Live (s : State) (i pid : ℕ) : Prop := s.procs pid = some ⟨some i, false⟩

/-- A child that is new in the next state is for an entry that is not unloaded, and entries that are
unloaded stay as they are. -/
structure Respects (s t : State) : Prop where
  /-- The new children. -/
  fork : ∀ i pid, Owns t.procs i pid → Owns s.procs i pid ∨ (s.table.daemons i).unloaded = false
  /-- The entries that are unloaded. -/
  keep : ∀ i < s.table.ndaemons, (s.table.daemons i).unloaded = true →
    t.table.daemons i = s.table.daemons i

/-- The step respects the lock: from `find_by_pid` to the end of `spawn_daemon` the main loop is not
in a section of the control thread. What is started at load is neither running nor unloaded, and a
`fork` does not return the pid that `wait4` has returned and that was not looked up yet. -/
def Locked (s : State) : Action → Prop
  | .find => s.control.locks = false
  | .enter _ => s.main.handles = false
  | .sweep => ∀ i ∈ s.main.sweeping, i < s.table.ndaemons →
      (s.table.daemons i).cfg.runAtLoad = true →
        (s.table.daemons i).pid = 0 ∧ (s.table.daemons i).unloaded = false
  | .controlSpawn (some pid) => s.main ≠ .reaped pid
  | _ => True

instance : DecidableRel Locked
  | _, .find => inferInstanceAs (Decidable (_ = _))
  | _, .enter _ => inferInstanceAs (Decidable (_ = _))
  | _, .sweep => inferInstanceAs (Decidable (∀ i ∈ _, _))
  | _, .controlSpawn (some _) => inferInstanceAs (Decidable (_ ≠ _))
  | _, .loadAll _ | _, .startAll | _, .mainSpawn _ | _, .wait4 _ | _, .clear | _, .operate
  | _, .controlSpawn none | _, .leave | _, .exit _ | _, .appear _ | _, .vanish _ => .isTrue trivial

/-! ## The invariant -/

/-- What the table and the processes have to do with the thread that is in `spawn_daemon`, the pid
that `wait4` has returned, and the entry that `find_by_pid` has returned. -/
structure Tracks (t : Table) (procs : Procs) (spawn : Option Spawn) (hand found : Option ℕ) :
    Prop where
  /-- The entry of a child has its pid, or the pid is not recorded yet. -/
  known : ∀ i p, Owns procs i p →
    i < t.ndaemons ∧ 0 < p ∧ ((t.daemons i).pid = p ∨ spawn = some (.forked i p))
  /-- An entry that has a pid has the child, which may have been reaped just now. -/
  own : ∀ i < t.ndaemons, (t.daemons i).unloaded = false →
    (t.daemons i).pid = 0 ∨ Owns procs i (t.daemons i).pid ∨ hand = some (t.daemons i).pid ∨
      found = some i
  /-- No two entries have the same pid. -/
  apart : ∀ i < t.ndaemons, ∀ j < t.ndaemons, (t.daemons i).unloaded = false →
    (t.daemons j).unloaded = false → (t.daemons i).pid = (t.daemons j).pid →
      (t.daemons i).pid = 0 ∨ i = j
  /-- An entry that a child is spawned for. -/
  called : ∀ sp, spawn = some sp → found = none ∧ sp.entry < t.ndaemons ∧
    (t.daemons sp.entry).pid = 0 ∧ (t.daemons sp.entry).unloaded = false
  /-- A child whose pid is not recorded yet is the only one, and may have been reaped just now. -/
  forked : ∀ i p, spawn = some (.forked i p) → (Owns procs i p ∨ hand = some p) ∧
    ∀ j < t.ndaemons, (t.daemons j).unloaded = false → (t.daemons j).pid ≠ p
  /-- The pid that `wait4` has returned is that of no child. -/
  inHand : ∀ p, hand = some p → 0 < p ∧ found = none ∧ ∀ i, ¬Owns procs i p
  /-- The entry that `find_by_pid` has returned has no child. -/
  searched : ∀ i, found = some i →
    i < t.ndaemons ∧ (t.daemons i).unloaded = false ∧ ∀ p, ¬Owns procs i p

section

variable {t : Table} {procs : Procs} {sp : Spawn} {spawn : Option Spawn} {hand found : Option ℕ}
  {i j pid : ℕ}

/-- A process that changes without changing its owner. -/
lemma owns_update {p : ℕ} {x : Option Proc} (h : x.bind Proc.owner = (procs pid).bind Proc.owner) :
    Owns (update procs pid x) j p ↔ Owns procs j p := by
  rw [Owns, Owns]
  rcases eq_or_ne p pid with rfl | hp
  · rw [update_self, h]
  · rw [update_of_ne hp]

/-- Processes that change without changing their owners. -/
lemma Tracks.of_owner (h : Tracks t procs spawn hand found) {procs' : Procs}
    (howner : ∀ i p, Owns procs' i p ↔ Owns procs i p) : Tracks t procs' spawn hand found where
  known i p ho := h.known i p ((howner i p).mp ho)
  own i hi hu := by
    rw [howner]
    exact h.own i hi hu
  apart := h.apart
  called := h.called
  forked i p hsp := by
    rw [howner]
    exact h.forked i p hsp
  inHand p hp := by
    simp only [howner]
    exact h.inHand p hp
  searched i hi := by
    simp only [howner]
    exact h.searched i hi

/-- **`spawn_daemon` is called** for an entry that has no pid. -/
lemma Tracks.call (h : Tracks t procs none hand none) (hi : i < t.ndaemons)
    (hpid : (t.daemons i).pid = 0) (hu : (t.daemons i).unloaded = false) :
    Tracks t procs (some (.before i)) hand none where
  known j p ho := by
    obtain ⟨hj, hpos, hor⟩ := h.known j p ho
    exact ⟨hj, hpos, Or.inl (hor.resolve_right nofun)⟩
  own := h.own
  apart := h.apart
  called sp hsp := by
    cases hsp
    exact ⟨rfl, hi, hpid, hu⟩
  forked i p hsp := by cases hsp
  inHand := h.inHand
  searched := h.searched

/-- `fork` fails. -/
lemma Tracks.fail (h : Tracks t procs (some (.before i)) hand found) :
    Tracks t procs none hand found where
  known j p ho := by
    obtain ⟨hj, hpos, hor⟩ := h.known j p ho
    exact ⟨hj, hpos, Or.inl (hor.resolve_right nofun)⟩
  own := h.own
  apart := h.apart
  called sp hsp := by cases hsp
  forked i p hsp := by cases hsp
  inHand := h.inHand
  searched := h.searched

/-- The owners behind a `fork`. -/
lemma owns_fork {p : ℕ} : Owns (update procs pid (some ⟨some i, false⟩)) j p ↔
    p = pid ∧ j = i ∨ p ≠ pid ∧ Owns procs j p := by
  rw [Owns]
  rcases eq_or_ne p pid with rfl | hp
  · rw [update_self]
    simp [eq_comm]
  · rw [update_of_ne hp]
    simp [hp, Owns]

/-- The owners when a process is gone. -/
lemma owns_gone {p : ℕ} : Owns (update procs pid none) j p ↔ p ≠ pid ∧ Owns procs j p := by
  rw [Owns]
  rcases eq_or_ne p pid with rfl | hp
  · rw [update_self]
    simp
  · rw [update_of_ne hp]
    simp [hp, Owns]

/-- **`fork`** makes a child for the entry. -/
lemma Tracks.fork (h : Tracks t procs (some (.before i)) hand found) (hpos : 0 < pid)
    (hfree : procs pid = none) (hhand : hand ≠ some pid) :
    Tracks t (update procs pid (some ⟨some i, false⟩)) (some (.forked i pid)) hand found := by
  obtain ⟨hfound, hi, hpid, hu⟩ := h.called _ rfl
  have hnone : ∀ j, ¬Owns procs j pid := by
    intro j ho
    rw [Owns, hfree] at ho
    cases ho
  refine ⟨fun j p ho => ?_, fun j hj hju => ?_, h.apart, fun sp hsp => ?_, fun j p hsp => ?_,
    fun p hp => ?_, fun j hj => ?_⟩
  · obtain ⟨rfl, rfl⟩ | ⟨-, ho⟩ := owns_fork.1 ho
    · exact ⟨hi, hpos, Or.inr rfl⟩
    · obtain ⟨hj, hp, hor⟩ := h.known j p ho
      exact ⟨hj, hp, Or.inl (hor.resolve_right nofun)⟩
  · refine (h.own j hj hju).imp_right fun hor => hor.imp_left fun ho => ?_
    refine owns_fork.2 (Or.inr ⟨?_, ho⟩)
    intro heq
    exact hnone j (heq ▸ ho)
  · cases hsp
    exact ⟨hfound, hi, hpid, hu⟩
  · cases hsp
    refine ⟨Or.inl (owns_fork.2 (Or.inl ⟨rfl, rfl⟩)), fun j hj hju heq => ?_⟩
    -- the pid of an entry is zero, of a process, or in hand, and this one is not
    obtain hzero | ho | hor | hor := h.own j hj hju
    · omega
    · exact hnone j (heq ▸ ho)
    · exact hhand (heq ▸ hor)
    · rw [hfound] at hor
      cases hor
  · obtain ⟨hp', hno, hnot⟩ := h.inHand p hp
    refine ⟨hp', hno, fun j ho => ?_⟩
    obtain ⟨rfl, -⟩ | ⟨-, ho⟩ := owns_fork.1 ho
    · exact hhand hp
    · exact hnot j ho
  · rw [hfound] at hj
    cases hj

/-- **The pid is recorded.** -/
lemma Tracks.record (h : Tracks t procs (some (.forked i pid)) hand found) :
    Tracks (t.setPid i pid) procs none hand found := by
  obtain ⟨hfound, hi, hpid, hu⟩ := h.called _ rfl
  obtain ⟨hchild, hother⟩ := h.forked i pid rfl
  dsimp only [Spawn.entry] at hi hpid hu
  have hnew : ∀ j < t.ndaemons, (t.daemons j).unloaded = false → j ≠ i →
      ((t.setPid i pid).daemons j).pid ≠ pid := by
    intro j hj hju hne
    rw [Table.setPid_of_ne hne]
    exact hother j hj hju
  refine ⟨fun j p ho => ?_, fun j hj hju => ?_, fun j hj k hk hju hku heq => ?_, nofun, nofun,
    h.inHand, fun j hj => ?_⟩
  · obtain ⟨hj, hpos, hor⟩ := h.known j p ho
    refine ⟨hj, hpos, Or.inl ?_⟩
    rcases eq_or_ne j i with rfl | hne
    · rw [Table.setPid_pid_self]
      obtain heq | hsp := hor
      · omega
      · exact (Spawn.forked.inj (Option.some.inj hsp)).2
    · rw [Table.setPid_of_ne hne]
      refine hor.resolve_right fun hsp => hne ?_
      exact (Spawn.forked.inj (Option.some.inj hsp)).1.symm
  · rw [Table.setPid_unloaded] at hju
    rcases eq_or_ne j i with rfl | hne
    · rw [Table.setPid_pid_self]
      exact Or.inr (hchild.imp_right Or.inl)
    · rw [Table.setPid_of_ne hne]
      exact h.own j hj hju
  · rw [Table.setPid_unloaded] at hju hku
    rcases eq_or_ne j i with rfl | hj'
    · rcases eq_or_ne k j with rfl | hk'
      · exact Or.inr rfl
      · rw [Table.setPid_pid_self] at heq
        exact absurd heq.symm (hnew k hk hku hk')
    · rcases eq_or_ne k i with rfl | hk'
      · rw [Table.setPid_pid_self] at heq
        exact absurd heq (hnew j hj hju hj')
      · rw [Table.setPid_of_ne hj', Table.setPid_of_ne hk'] at heq
        rw [Table.setPid_of_ne hj']
        exact h.apart j hj k hk hju hku heq
  · rw [hfound] at hj
    cases hj

/-- **`wait4`** takes a process away. -/
lemma Tracks.wait4 (h : Tracks t procs spawn none none) (hpos : 0 < pid) :
    Tracks t (update procs pid none) spawn (some pid) none where
  known j p ho := h.known j p (owns_gone.1 ho).2
  own j hj hju := by
    rcases eq_or_ne (t.daemons j).pid pid with heq | hne
    · exact Or.inr (Or.inr (Or.inl (congrArg some heq.symm)))
    · refine (h.own j hj hju).imp_right fun hor => Or.inl (owns_gone.2 ⟨hne, ?_⟩)
      exact hor.resolve_right nofun
  apart := h.apart
  called := h.called
  forked j p hsp := by
    obtain ⟨hchild, hother⟩ := h.forked j p hsp
    refine ⟨?_, hother⟩
    rcases eq_or_ne p pid with rfl | hne
    · exact Or.inr rfl
    · exact Or.inl (owns_gone.2 ⟨hne, hchild.resolve_right nofun⟩)
  inHand p hp := by
    cases hp
    exact ⟨hpos, rfl, fun j ho => (owns_gone.1 ho).1 rfl⟩
  searched j hj := by cases hj

/-- **`find_by_pid`** finds the entry of the child that was reaped, if that is not unloaded. -/
lemma Tracks.find (h : Tracks t procs none (some pid) found) :
    Tracks t procs none none (t.findByPid pid) := by
  obtain ⟨hpos, hno, hnot⟩ := h.inHand pid rfl
  refine ⟨h.known, fun j hj hju => ?_, h.apart, nofun, nofun, nofun, fun j hj => ?_⟩
  · obtain hzero | ho | hor | hor := h.own j hj hju
    · exact Or.inl hzero
    · exact Or.inr (Or.inl ho)
    · right
      right
      right
      have hpid := Option.some.inj hor
      cases hfind : t.findByPid pid with
      | none => exact absurd hpid.symm (Table.findByPid_none hfind hj hju)
      | some k =>
        obtain ⟨hk, hku, hkp⟩ := Table.findByPid_some hfind
        obtain hzero | rfl := h.apart j hj k hk hju hku (hpid.symm.trans hkp.symm)
        · omega
        · rfl
    · rw [hno] at hor
      cases hor
  · obtain ⟨hj, hju, hjp⟩ := Table.findByPid_some hj
    refine ⟨hj, hju, fun p ho => ?_⟩
    obtain ⟨-, -, hor⟩ := h.known j p ho
    have heq := hor.resolve_right nofun
    exact hnot j (hjp ▸ heq ▸ ho)

/-- **The pid is cleared.** -/
lemma Tracks.clear (h : Tracks t procs none hand (some i)) :
    Tracks (t.setPid i 0) procs none hand none := by
  obtain ⟨hi, hu, hno⟩ := h.searched i rfl
  have hhand : hand = none := by
    cases hand with
    | none => rfl
    | some p => exact absurd (h.inHand p rfl).2.1 nofun
  subst hhand
  refine ⟨fun j p ho => ?_, fun j hj hju => ?_, fun j hj k hk hju hku heq => ?_, nofun, nofun,
    nofun, nofun⟩
  · have hne : j ≠ i := by
      rintro rfl
      exact hno p ho
    rw [Table.setPid_of_ne hne]
    exact h.known j p ho
  · rw [Table.setPid_unloaded] at hju
    rcases eq_or_ne j i with rfl | hne
    · exact Or.inl Table.setPid_pid_self
    · rw [Table.setPid_of_ne hne]
      obtain hzero | ho | hor | hor := h.own j hj hju
      · exact Or.inl hzero
      · exact Or.inr (Or.inl ho)
      · cases hor
      · exact absurd (Option.some.inj hor).symm hne
  · rw [Table.setPid_unloaded] at hju hku
    rcases eq_or_ne j i with rfl | hj'
    · exact Or.inl Table.setPid_pid_self
    · rcases eq_or_ne k i with rfl | hk'
      · rw [Table.setPid_pid_self] at heq
        exact Or.inl heq
      · rw [Table.setPid_of_ne hj', Table.setPid_of_ne hk'] at heq
        rw [Table.setPid_of_ne hj']
        exact h.apart j hj k hk hju hku heq

/-- **A new entry** has no child. -/
lemma Tracks.append (h : Tracks t procs none hand found) (cfg : DaemonConfig) :
    Tracks (t.append cfg) procs none hand found := by
  have hold : ∀ j < t.ndaemons, (t.append cfg).daemons j = t.daemons j := fun j hj =>
    Table.append_of_ne cfg (Nat.ne_of_lt hj)
  have hsplit : ∀ j < (t.append cfg).ndaemons, j < t.ndaemons ∨ j = t.ndaemons := by
    intro j hj
    rw [Table.append_ndaemons] at hj
    omega
  refine ⟨fun j p ho => ?_, fun j hj hju => ?_, fun j hj k hk hju hku heq => ?_, nofun, nofun,
    h.inHand, fun j hj => ?_⟩
  · obtain ⟨hj, hpos, hor⟩ := h.known j p ho
    rw [hold j hj, Table.append_ndaemons]
    exact ⟨by omega, hpos, hor⟩
  · obtain hj | rfl := hsplit j hj
    · rw [hold j hj] at hju ⊢
      exact h.own j hj hju
    · rw [Table.append_self]
      exact Or.inl rfl
  · obtain hj | rfl := hsplit j hj
    · obtain hk | rfl := hsplit k hk
      · rw [hold j hj] at hju heq ⊢
        rw [hold k hk] at hku heq
        exact h.apart j hj k hk hju hku heq
      · rw [Table.append_self] at heq
        exact Or.inl heq
    · rw [Table.append_self]
      exact Or.inl rfl
  · obtain ⟨hj, hju, hno⟩ := h.searched j hj
    rw [hold j hj, Table.append_ndaemons]
    exact ⟨by omega, hju, hno⟩

/-- **An entry is unloaded.** -/
lemma Tracks.unload (h : Tracks t procs none hand none) (i : ℕ) :
    Tracks (t.setUnloaded i) procs none hand none := by
  have hold : ∀ j, ((t.setUnloaded i).daemons j).unloaded = false →
      (t.daemons j).unloaded = false := by
    intro j hju
    rcases eq_or_ne j i with rfl | hne
    · rw [Table.setUnloaded_self] at hju
      cases hju
    · rwa [Table.setUnloaded_of_ne hne] at hju
  refine ⟨fun j p ho => ?_, fun j hj hju => ?_, fun j hj k hk hju hku heq => ?_, nofun, nofun,
    h.inHand, nofun⟩
  · rw [Table.setUnloaded_pid]
    exact h.known j p ho
  · rw [Table.setUnloaded_pid]
    exact h.own j hj (hold j hju)
  · rw [Table.setUnloaded_pid] at heq ⊢
    rw [Table.setUnloaded_pid] at heq
    exact h.apart j hj k hk (hold j hju) (hold k hku) heq

/-- The entries of `load_all_daemons` have no children. -/
lemma Tracks.loadAll (h : Tracks t procs none hand found) (cfgs : List DaemonConfig) :
    Tracks (loadAllDaemons t cfgs) procs none hand found := by
  unfold loadAllDaemons
  induction cfgs generalizing t with
  | nil => exact h
  | cons cfg cfgs ih =>
    rw [List.foldl_cons]
    split_ifs
    · exact ih (h.append cfg)
    · exact ih h

end

/-! ## The steps keep it -/

/-- What the main thread is in `spawn_daemon` for. -/
def Main.called : Main → Option Spawn
  | starting sp | respawning sp => some sp
  | _ => none

/-- What the control thread is in `spawn_daemon` for. -/
def Control.called : Control → Option Spawn
  | spawning sp => some sp
  | _ => none

/-- The pid that `wait4` has returned. -/
def Main.inHand : Main → Option ℕ
  | reaped pid => some pid
  | _ => none

/-- The entry that `find_by_pid` has returned. -/
def Main.searched : Main → Option ℕ
  | found i => some i
  | _ => none

/-- **The invariant**: one thread at a time works on the table. -/
structure Inv (s : State) : Prop where
  /-- While the main thread does, the control thread does not have the lock. -/
  exclusive : (s.main.locks || s.main.handles) = true → s.control = .idle
  /-- The table and the processes. -/
  tracks : Tracks s.table s.procs (s.main.called.or s.control.called) s.main.inHand s.main.searched

section

variable {s s' : State} {sp : Spawn} {sp' : Option Spawn} {fork hand found : Option ℕ}

/-- **A step in `spawn_daemon`.** -/
lemma spawnDaemon_tracks (h : Tracks s.table s.procs (some sp) hand found)
    (hfork : ∀ pid, fork = some pid → hand ≠ some pid)
    (hs : spawnDaemon s sp fork = some (s', sp')) :
    Tracks s'.table s'.procs sp' hand found ∧ s'.main = s.main ∧ s'.control = s.control := by
  cases sp with
  | before i =>
    cases fork with
    | none =>
      cases hs
      exact ⟨h.fail, rfl, rfl⟩
    | some pid =>
      rw [spawnDaemon, Option.ite_none_right_eq_some] at hs
      obtain ⟨⟨hpos, hfree⟩, hs⟩ := hs
      cases hs
      exact ⟨h.fork hpos hfree (hfork pid rfl), rfl, rfl⟩
  | forked i pid =>
    cases hs
    exact ⟨h.record, rfl, rfl⟩

/-- **A section of the control thread**, as far as `spawn_daemon`. -/
lemma operate_tracks (h : Tracks s.table s.procs none hand none) (op : Op) :
    Tracks (operate s op).table (operate s op).procs (operate s op).control.called hand none ∧
      (operate s op).main = s.main := by
  cases op with
  | load cfg =>
    rw [operate]
    split_ifs with hno hrun
    · exact ⟨h, rfl⟩
    · have happend := h.append cfg
      refine ⟨happend.call ?_ ?_ ?_, rfl⟩
      · rw [Table.append_ndaemons]
        exact Nat.lt_succ_self _
      · rw [Table.append_self]
      · rw [Table.append_self]
    · exact ⟨h.append cfg, rfl⟩
  | start label =>
    rw [operate]
    cases hfind : s.table.findByLabel label with
    | none => exact ⟨h, rfl⟩
    | some i =>
      obtain ⟨hi, hu, -⟩ := Table.findByLabel_some hfind
      dsimp only
      split_ifs with hpid
      · exact ⟨h, rfl⟩
      · exact ⟨h.call hi (by omega) hu, rfl⟩
  | stop label => exact ⟨h, rfl⟩
  | unload label =>
    rw [operate]
    cases hfind : s.table.findByLabel label with
    | none => exact ⟨h, rfl⟩
    | some i => exact ⟨h.unload i, rfl⟩

/-- **Steps that respect the lock** keep the invariant. -/
lemma Inv.step {t : State} {a : Action} (h : Inv s) (hlock : Locked s a)
    (hs : step s a = some t) : Inv t := by
  obtain ⟨hexcl, htracks⟩ := h
  obtain ⟨table, procs, main, control⟩ := s
  dsimp only at hexcl htracks
  cases a with
  | loadAll cfgs =>
    cases main <;> cases control <;> cases hs
    exact ⟨fun _ => rfl, htracks.loadAll cfgs⟩
  | startAll =>
    cases main <;> cases control <;> cases hs
    exact ⟨fun _ => rfl, htracks⟩
  | sweep =>
    cases main <;> try cases hs
    next i =>
    obtain rfl := hexcl rfl
    dsimp only [Supervision.step] at hs
    split_ifs at hs with hend hrun <;> cases hs
    · exact ⟨nofun, htracks⟩
    · obtain ⟨hpid, hu⟩ := hlock i rfl (Nat.lt_of_not_le hend) hrun
      exact ⟨fun _ => rfl, htracks.call (Nat.lt_of_not_le hend) hpid hu⟩
    · exact ⟨fun _ => rfl, htracks⟩
  | mainSpawn fork =>
    cases main <;> try cases hs
    all_goals
      next sp =>
      obtain rfl := hexcl rfl
      rw [Supervision.step, Option.map_eq_some_iff] at hs
      obtain ⟨⟨s', sp'⟩, hspawn, rfl⟩ := hs
      obtain ⟨htracks', -, hcontrol⟩ := spawnDaemon_tracks htracks (fun _ _ heq => by cases heq) hspawn
      dsimp only at hcontrol ⊢
      cases sp' with
      | none => exact ⟨fun _ => hcontrol, by rw [hcontrol]; exact htracks'⟩
      | some sp' => exact ⟨fun _ => hcontrol, htracks'⟩
  | wait4 pid =>
    cases main <;> try cases hs
    rw [Supervision.step, Option.ite_none_right_eq_some] at hs
    obtain ⟨⟨hpos, -⟩, hs⟩ := hs
    cases hs
    exact ⟨nofun, htracks.wait4 hpos⟩
  | find =>
    cases main <;> try cases hs
    next pid =>
    have hidle : control = .idle := by
      cases control <;> first | rfl | cases hlock
    subst hidle
    have hfound := htracks.find
    dsimp only
    cases hfind : table.findByPid pid with
    | none =>
      rw [hfind] at hfound
      exact ⟨nofun, hfound⟩
    | some i =>
      rw [hfind] at hfound
      exact ⟨fun _ => rfl, hfound⟩
  | clear =>
    cases main <;> try cases hs
    next i =>
    obtain rfl := hexcl rfl
    have hclear := htracks.clear
    dsimp only
    split_ifs with hkeep
    · obtain ⟨hi, hu, -⟩ := htracks.searched i rfl
      refine ⟨fun _ => rfl, hclear.call hi Table.setPid_pid_self ?_⟩
      rw [Table.setPid_unloaded]
      exact hu
    · exact ⟨fun _ => rfl, hclear⟩
  | enter op =>
    cases control <;> try cases hs
    rw [Supervision.step, Option.ite_none_left_eq_some] at hs
    obtain ⟨hfree, hs⟩ := hs
    cases hs
    refine ⟨fun hbusy => ?_, htracks⟩
    dsimp only at hbusy hfree
    rw [Locked] at hlock
    simp [hlock, hfree] at hbusy
  | operate =>
    cases control <;> try cases hs
    next op =>
    have hmain : (main.locks || main.handles) = false := by
      by_contra hbusy
      cases hexcl (Bool.of_not_eq_false hbusy)
    have hcalled : main.called = none := by
      cases main <;> first | rfl | cases hmain
    have hsearched : main.searched = none := by
      cases main <;> first | rfl | cases hmain
    rw [hcalled, hsearched] at htracks
    obtain ⟨htracks', hsame⟩ := operate_tracks (s := ⟨table, procs, main, .entered op⟩) htracks op
    dsimp only at hsame
    refine ⟨fun hbusy => ?_, ?_⟩
    · rw [hsame, hmain] at hbusy
      cases hbusy
    · rw [hsame, hcalled, hsearched]
      exact htracks'
  | controlSpawn fork =>
    cases control <;> try cases hs
    next sp =>
    have hmain : (main.locks || main.handles) = false := by
      by_contra hbusy
      cases hexcl (Bool.of_not_eq_false hbusy)
    have hcalled : main.called = none := by
      cases main <;> first | rfl | cases hmain
    rw [hcalled] at htracks
    rw [Supervision.step, Option.map_eq_some_iff] at hs
    obtain ⟨⟨s', sp'⟩, hspawn, rfl⟩ := hs
    have hfork : ∀ pid, fork = some pid → main.inHand ≠ some pid := by
      rintro pid rfl heq
      cases main <;> cases heq
      exact hlock rfl
    obtain ⟨htracks', hsame, -⟩ := spawnDaemon_tracks htracks hfork hspawn
    dsimp only at hsame ⊢
    refine ⟨fun hbusy => ?_, ?_⟩
    · dsimp only at hbusy
      rw [hsame, hmain] at hbusy
      cases hbusy
    · dsimp only
      rw [hsame, hcalled]
      cases sp' <;> exact htracks'
  | leave =>
    cases control <;> cases hs
    exact ⟨fun _ => rfl, htracks⟩
  | exit pid =>
    dsimp only [Supervision.step] at hs
    split at hs <;> cases hs
    next p hp => exact ⟨hexcl, htracks.of_owner fun i q => owns_update (by rw [hp]; rfl)⟩
  | appear pid =>
    rw [Supervision.step, Option.ite_none_right_eq_some] at hs
    obtain ⟨hfree, hs⟩ := hs
    cases hs
    exact ⟨hexcl, htracks.of_owner fun i q => owns_update (by rw [hfree]; rfl)⟩
  | vanish pid =>
    dsimp only [Supervision.step] at hs
    split at hs <;> cases hs
    next e hp => exact ⟨hexcl, htracks.of_owner fun i q => owns_update (by rw [hp]; rfl)⟩

/-! ## What the invariant says -/

/-- A child that is alive is a child. -/
lemma Live.owns {i pid : ℕ} (h : Live s i pid) : Owns s.procs i pid := by
  rw [Owns, h]
  rfl

/-- Nothing is spawned, and the table stays. -/
lemma respects_of_table {t : State} (hprocs : ∀ i p, Owns t.procs i p → Owns s.procs i p)
    (htable : t.table = s.table) : Respects s t :=
  ⟨fun i p ho => Or.inl (hprocs i p ho), fun i _ _ => by rw [htable]⟩

/-- The entry whose pid is set is not unloaded. -/
lemma keep_setPid {t : Table} {i j pid : ℕ} (hu : (t.daemons i).unloaded = false)
    (hju : (t.daemons j).unloaded = true) : (t.setPid i pid).daemons j = t.daemons j := by
  refine Table.setPid_of_ne ?_
  rintro rfl
  rw [hju] at hu
  cases hu

/-- **A step in `spawn_daemon`** is for an entry that is not unloaded. -/
lemma spawnDaemon_respects (h : Tracks s.table s.procs (some sp) hand found)
    (hs : spawnDaemon s sp fork = some (s', sp')) : Respects s s' := by
  obtain ⟨-, -, -, hu⟩ := h.called sp rfl
  cases sp with
  | before i =>
    cases fork with
    | none =>
      cases hs
      exact respects_of_table (fun _ _ => id) rfl
    | some pid =>
      rw [spawnDaemon, Option.ite_none_right_eq_some] at hs
      obtain ⟨-, hs⟩ := hs
      cases hs
      refine ⟨fun j p ho => ?_, fun j _ _ => rfl⟩
      obtain ⟨-, rfl⟩ | ⟨-, ho⟩ := owns_fork.mp ho
      · exact Or.inr hu
      · exact Or.inl ho
  | forked i pid =>
    cases hs
    exact ⟨fun j p ho => Or.inl ho, fun j _ hju => keep_setPid hu hju⟩

/-- **A section of the control thread** changes only entries that are not unloaded. -/
lemma operate_respects (op : Op) : Respects s (operate s op) := by
  cases op with
  | load cfg =>
    rw [operate]
    split_ifs
    · exact respects_of_table (fun _ _ => id) rfl
    all_goals
      exact ⟨fun j p ho => Or.inl ho, fun j hj _ => Table.append_of_ne cfg (Nat.ne_of_lt hj)⟩
  | start label =>
    rw [operate]
    cases s.table.findByLabel label with
    | none => exact respects_of_table (fun _ _ => id) rfl
    | some i =>
      dsimp only
      split_ifs <;> exact respects_of_table (fun _ _ => id) rfl
  | stop label => exact respects_of_table (fun _ _ => id) rfl
  | unload label =>
    rw [operate]
    cases hfind : s.table.findByLabel label with
    | none => exact respects_of_table (fun _ _ => id) rfl
    | some i =>
      obtain ⟨-, hu, -⟩ := Table.findByLabel_some hfind
      refine ⟨fun j p ho => Or.inl ho, fun j _ hju => Table.setUnloaded_of_ne ?_⟩
      rintro rfl
      rw [hju] at hu
      cases hu

/-- The entries of `load_all_daemons` are behind the others. -/
lemma loadAll_of_lt {t : Table} (cfgs : List DaemonConfig) {i : ℕ} (hi : i < t.ndaemons) :
    (loadAllDaemons t cfgs).daemons i = t.daemons i := by
  unfold loadAllDaemons
  induction cfgs generalizing t with
  | nil => rfl
  | cons cfg cfgs ih =>
    rw [List.foldl_cons]
    split_ifs
    · rw [ih (by rw [Table.append_ndaemons]; omega), Table.append_of_ne cfg (Nat.ne_of_lt hi)]
    · exact ih hi

/-- **No child is spawned for an entry that is unloaded**, and such an entry stays. -/
lemma Inv.respects {t : State} {a : Action} (h : Inv s) (hs : Supervision.step s a = some t) :
    Respects s t := by
  obtain ⟨hexcl, htracks⟩ := h
  obtain ⟨table, procs, main, control⟩ := s
  dsimp only at hexcl htracks
  cases a with
  | loadAll cfgs =>
    cases main <;> cases control <;> cases hs
    exact ⟨fun _ _ ho => Or.inl ho, fun i hi _ => loadAll_of_lt cfgs hi⟩
  | startAll =>
    cases main <;> cases control <;> cases hs
    exact respects_of_table (fun _ _ => id) rfl
  | sweep =>
    cases main <;> try cases hs
    dsimp only [Supervision.step] at hs
    split_ifs at hs <;> cases hs <;> exact respects_of_table (fun _ _ => id) rfl
  | mainSpawn fork =>
    cases main <;> try cases hs
    all_goals
      rw [Supervision.step, Option.map_eq_some_iff] at hs
      obtain ⟨⟨s', sp'⟩, hspawn, rfl⟩ := hs
      obtain ⟨hfork, hkeep⟩ := spawnDaemon_respects htracks hspawn
      exact ⟨hfork, hkeep⟩
  | wait4 pid =>
    cases main <;> try cases hs
    rw [Supervision.step, Option.ite_none_right_eq_some] at hs
    obtain ⟨-, hs⟩ := hs
    cases hs
    exact respects_of_table (fun _ _ ho => (owns_gone.mp ho).2) rfl
  | find =>
    cases main <;> cases hs
    exact respects_of_table (fun _ _ => id) rfl
  | clear =>
    cases main <;> cases hs
    obtain ⟨-, hu, -⟩ := htracks.searched _ rfl
    exact ⟨fun _ _ ho => Or.inl ho, fun j _ hju => keep_setPid hu hju⟩
  | enter op =>
    cases control <;> try cases hs
    rw [Supervision.step, Option.ite_none_left_eq_some] at hs
    obtain ⟨-, hs⟩ := hs
    cases hs
    exact respects_of_table (fun _ _ => id) rfl
  | operate =>
    cases control <;> cases hs
    exact operate_respects _
  | controlSpawn fork =>
    cases control <;> try cases hs
    next sp =>
    have hmain : main.called = none := by
      cases main <;> first | rfl | cases hexcl rfl
    rw [hmain] at htracks
    rw [Supervision.step, Option.map_eq_some_iff] at hs
    obtain ⟨⟨s', sp'⟩, hspawn, rfl⟩ := hs
    obtain ⟨hfork, hkeep⟩ := spawnDaemon_respects htracks hspawn
    exact ⟨hfork, hkeep⟩
  | leave =>
    cases control <;> cases hs
    exact respects_of_table (fun _ _ => id) rfl
  | exit pid =>
    dsimp only [Supervision.step] at hs
    split at hs <;> cases hs
    next p hp => exact respects_of_table (fun i q => (owns_update (by rw [hp]; rfl)).mp) rfl
  | appear pid =>
    rw [Supervision.step, Option.ite_none_right_eq_some] at hs
    obtain ⟨hfree, hs⟩ := hs
    cases hs
    exact respects_of_table (fun i q => (owns_update (by rw [hfree]; rfl)).mp) rfl
  | vanish pid =>
    dsimp only [Supervision.step] at hs
    split at hs <;> cases hs
    exact respects_of_table (fun _ _ ho => (owns_gone.mp ho).2) rfl

end

/-- A run from a boot without other processes ends in a state of a kind. -/
def Ends (as : List Action) (P : State → Prop) : Prop :=
  ∃ s, Transition.exec step (boot fun _ => false) as = some s ∧ P s

/-- A boot with one daemon that is started at load and kept alive. -/
def started : List Action :=
  [.loadAll [⟨"d", true, true⟩], .startAll, .sweep, .mainSpawn (some 2), .mainSpawn none, .sweep]

/-- The child exits, and the main loop is about to spawn it again. -/
def respawning : List Action := started ++ [Action.exit 2, .wait4 2, .find, .clear]

end Asteros.Launchd.Supervision
