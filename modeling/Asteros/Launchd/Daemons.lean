import Mathlib.Data.List.Basic
import Mathlib.Logic.Function.Basic

set_option autoImplicit false

/-!
# The table of daemons

`launchd.c`: the table of the daemons, with the process that each of them has, and the searches in
it; and what the kernel knows of the processes. An entry is never taken out of the table: one that
is unloaded is marked and passed over by the searches.

Of the configuration of a daemon only the label and two flags are kept, as the others are read by
the child only; the time of the last spawn is left out, as all it does is delay the next.

## Main definitions

* `Daemon`, `Table` — the table.
* `Table.findByPid`, `Table.findByLabel` — the searches.
* `Proc` — a process.

## Main results

* `Table.findByPid_some`, `Table.findByPid_none`, `Table.findByLabel_some` — what is found.
-/

namespace Asteros.Launchd.Daemons

open Function

/-- `MAX_DAEMONS`. -/
def maxDaemons : ℕ := 64

/-- `struct daemon_config`. -/
structure DaemonConfig where
  /-- `label`. -/
  label : String
  /-- `run_at_load`. -/
  runAtLoad : Bool
  /-- `keep_alive`. -/
  keepAlive : Bool
  deriving DecidableEq

/-- `struct daemon`. -/
structure Daemon where
  /-- `cfg`. -/
  cfg : DaemonConfig
  /-- `pid`, which is zero if the daemon is not running. -/
  pid : ℕ
  /-- `unloaded`. -/
  unloaded : Bool
  deriving DecidableEq

/-- `g_daemons` and `g_ndaemons`. -/
structure Table where
  /-- The entries. -/
  daemons : ℕ → Daemon
  /-- The number of the entries in use. -/
  ndaemons : ℕ

namespace Table

variable (t : Table)

/-- `find_by_pid`. -/
def findByPid (pid : ℕ) : Option ℕ :=
  (List.range t.ndaemons).find? fun i => !(t.daemons i).unloaded && (t.daemons i).pid == pid

/-- `find_by_label`. -/
def findByLabel (label : String) : Option ℕ :=
  (List.range t.ndaemons).find? fun i =>
    !(t.daemons i).unloaded && (t.daemons i).cfg.label == label

/-- The table with another `pid` in an entry. -/
def setPid (i pid : ℕ) : Table :=
  { t with daemons := update t.daemons i { t.daemons i with pid := pid } }

/-- The table with an entry marked. -/
def setUnloaded (i : ℕ) : Table :=
  { t with daemons := update t.daemons i { t.daemons i with unloaded := true } }

/-- The table with one more entry. -/
def append (cfg : DaemonConfig) : Table :=
  ⟨update t.daemons t.ndaemons ⟨cfg, 0, false⟩, t.ndaemons + 1⟩

variable {t} {i j pid : ℕ} {label : String}

/-- What `find_by_pid` finds is in use, not unloaded, and has the pid. -/
lemma findByPid_some (h : t.findByPid pid = some i) :
    i < t.ndaemons ∧ (t.daemons i).unloaded = false ∧ (t.daemons i).pid = pid := by
  have hmem := List.mem_of_find?_eq_some h
  have hp := List.find?_some h
  simp only [Bool.and_eq_true, Bool.not_eq_true', beq_iff_eq] at hp
  exact ⟨List.mem_range.mp hmem, hp⟩

/-- If it finds nothing, no entry that is not unloaded has the pid. -/
lemma findByPid_none (h : t.findByPid pid = none) (hi : i < t.ndaemons)
    (hu : (t.daemons i).unloaded = false) : (t.daemons i).pid ≠ pid := by
  have hp := List.find?_eq_none.mp h i (List.mem_range.mpr hi)
  simpa [hu] using hp

/-- What `find_by_label` finds is in use, not unloaded, and has the label. -/
lemma findByLabel_some (h : t.findByLabel label = some i) :
    i < t.ndaemons ∧ (t.daemons i).unloaded = false ∧ (t.daemons i).cfg.label = label := by
  have hmem := List.mem_of_find?_eq_some h
  have hp := List.find?_some h
  simp only [Bool.and_eq_true, Bool.not_eq_true', beq_iff_eq] at hp
  exact ⟨List.mem_range.mp hmem, hp⟩

/-- The entries in use are the same. -/
@[simp] lemma setPid_ndaemons : (t.setPid i pid).ndaemons = t.ndaemons := rfl

/-- The entries in use are the same. -/
@[simp] lemma setUnloaded_ndaemons : (t.setUnloaded i).ndaemons = t.ndaemons := rfl

/-- There is one more. -/
@[simp] lemma append_ndaemons (cfg : DaemonConfig) : (t.append cfg).ndaemons = t.ndaemons + 1 := rfl

/-- The entry has the pid. -/
@[simp] lemma setPid_pid_self : ((t.setPid i pid).daemons i).pid = pid := by
  simp [setPid]

/-- The other entries stay. -/
lemma setPid_of_ne (h : j ≠ i) : (t.setPid i pid).daemons j = t.daemons j := by
  simp [setPid, h]

/-- No mark changes. -/
@[simp] lemma setPid_unloaded (j : ℕ) :
    ((t.setPid i pid).daemons j).unloaded = (t.daemons j).unloaded := by
  rcases eq_or_ne j i with rfl | h
  · simp [setPid]
  · rw [setPid_of_ne h]

/-- No configuration changes. -/
@[simp] lemma setPid_cfg (j : ℕ) : ((t.setPid i pid).daemons j).cfg = (t.daemons j).cfg := by
  rcases eq_or_ne j i with rfl | h
  · simp [setPid]
  · rw [setPid_of_ne h]

/-- The entry is marked. -/
@[simp] lemma setUnloaded_self : ((t.setUnloaded i).daemons i).unloaded = true := by
  simp [setUnloaded]

/-- The other entries stay. -/
lemma setUnloaded_of_ne (h : j ≠ i) : (t.setUnloaded i).daemons j = t.daemons j := by
  simp [setUnloaded, h]

/-- No pid changes. -/
@[simp] lemma setUnloaded_pid (j : ℕ) :
    ((t.setUnloaded i).daemons j).pid = (t.daemons j).pid := by
  rcases eq_or_ne j i with rfl | h
  · simp [setUnloaded]
  · rw [setUnloaded_of_ne h]

/-- The new entry. -/
@[simp] lemma append_self (cfg : DaemonConfig) :
    (t.append cfg).daemons t.ndaemons = ⟨cfg, 0, false⟩ := by
  simp [append]

/-- The other entries stay. -/
lemma append_of_ne (cfg : DaemonConfig) (h : i ≠ t.ndaemons) :
    (t.append cfg).daemons i = t.daemons i := by
  simp [append, h]

end Table

/-- A process. -/
structure Proc where
  /-- The entry that `launchd` spawned it for, if it did. -/
  owner : Option ℕ
  /-- The process has exited, and waits to be reaped. -/
  exited : Bool
  deriving DecidableEq

/-- The processes by their pids. -/
abbrev Procs := ℕ → Option Proc

/-- The process is a child that `launchd` spawned for the entry, and has not been reaped. -/
def Owns (procs : Procs) (i pid : ℕ) : Prop := (procs pid).bind Proc.owner = some i

instance (procs : Procs) (i pid : ℕ) : Decidable (Owns procs i pid) :=
  inferInstanceAs (Decidable (_ = _))

end Asteros.Launchd.Daemons
