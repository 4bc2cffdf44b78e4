import Asteros.Launchd.Daemons

set_option autoImplicit false

/-!
# Two threads and one table

The main thread of `launchd` loads the daemons, starts those that run at load, and then reaps
children for ever and spawns those again that are to be kept alive. The control thread starts,
stops, loads and unloads daemons for `launchctl`. The lock of the table guards the sections of the
control thread and the boot of the main thread, but the main loop does not take it, although the
functions it calls ask for that.

A step is one access of a thread to the table, one `fork` or one `wait4`. The children exit at any
time, and the kernel may give a pid that is free to any process. The time that `spawn_daemon` sleeps
for is a thread that makes no step.

## Main definitions

* `Main`, `Control` — where the threads are.
* `spawnDaemon`, `operate` — what they call.
* `step` — the steps.
-/

namespace Asteros.Launchd.Supervision

open Function Daemons

/-! ## The threads -/

/-- Where a thread is in `spawn_daemon`. -/
inductive Spawn where
  /-- Before `fork`, for an entry. -/
  | before (i : ℕ)
  /-- Behind it, with a child whose pid is not recorded yet. -/
  | forked (i pid : ℕ)
  deriving DecidableEq

/-- The entry that the child is for. -/
def Spawn.entry : Spawn → ℕ
  | before i => i
  | forked i _ => i

/-- Where the main thread is. -/
inductive Main where
  /-- Before `load_all_daemons`. -/
  | boot
  /-- Before `start_runatload_daemons`. -/
  | loaded
  /-- At an entry in the loop of `start_runatload_daemons`, with the lock. -/
  | sweep (i : ℕ)
  /-- There in `spawn_daemon`, with the lock. -/
  | starting (sp : Spawn)
  /-- Before `wait4`. -/
  | waiting
  /-- Behind it, with the pid it returned. -/
  | reaped (pid : ℕ)
  /-- With the entry that `find_by_pid` returned. -/
  | found (i : ℕ)
  /-- In `spawn_daemon`, for a daemon that is to be kept alive. -/
  | respawning (sp : Spawn)
  deriving DecidableEq

/-- What the control thread is asked for. -/
inductive Op where
  /-- `lc_load`, with a configuration that could be read. -/
  | load (cfg : DaemonConfig)
  /-- `lc_start`. -/
  | start (label : String)
  /-- `lc_stop`. -/
  | stop (label : String)
  /-- `lc_unload`. -/
  | unload (label : String)

/-- Where the control thread is. -/
inductive Control where
  /-- Without the lock. -/
  | idle
  /-- Behind `pthread_mutex_lock`. -/
  | entered (op : Op)
  /-- In `spawn_daemon`, with the lock. -/
  | spawning (sp : Spawn)
  /-- Before `pthread_mutex_unlock`. -/
  | leaving

/-- The table, the processes and the threads. -/
structure State where
  /-- The table. -/
  table : Table
  /-- The processes. -/
  procs : Procs
  /-- The main thread. -/
  main : Main
  /-- The control thread. -/
  control : Control

/-- A step. The steps in `spawn_daemon` have the pid that `fork` returns, if it does not fail. -/
inductive Action where
  /-- `load_all_daemons`, with the configurations that could be read. -/
  | loadAll (cfgs : List DaemonConfig)
  /-- `start_runatload_daemons` takes the lock. -/
  | startAll
  /-- One pass of its loop as far as `spawn_daemon`. -/
  | sweep
  /-- The main thread goes on in `spawn_daemon`. -/
  | mainSpawn (fork : Option ℕ)
  /-- `wait4`. -/
  | wait4 (pid : ℕ)
  /-- `find_by_pid`. -/
  | find
  /-- `d->pid = 0`, and the decision to spawn. -/
  | clear
  /-- The control thread takes the lock. -/
  | enter (op : Op)
  /-- It does what it is asked for, as far as `spawn_daemon`. -/
  | operate
  /-- It goes on in `spawn_daemon`. -/
  | controlSpawn (fork : Option ℕ)
  /-- It gives the lock back. -/
  | leave
  /-- A process exits. -/
  | exit (pid : ℕ)
  /-- A process appears that is none of `launchd`. -/
  | appear (pid : ℕ)
  /-- Such a process is gone. -/
  | vanish (pid : ℕ)

/-! ## The steps -/

/-- The entries of `load_all_daemons`. -/
def loadAllDaemons (t : Table) (cfgs : List DaemonConfig) : Table :=
  cfgs.foldl (fun t cfg => if t.ndaemons < maxDaemons then t.append cfg else t) t

/-- One step in `spawn_daemon`: the `fork`, or recording the pid. With the state there is what
remains to be done. -/
def spawnDaemon (s : State) : Spawn → Option ℕ → Option (State × Option Spawn)
  | .before _, none => some (s, none)
  | .before i, some pid =>
    if 0 < pid ∧ s.procs pid = none then
      some ({ s with procs := update s.procs pid (some ⟨some i, false⟩) }, some (.forked i pid))
    else none
  | .forked i pid, _ => some ({ s with table := s.table.setPid i pid }, none)

/-- The main thread has the lock. -/
def Main.locks : Main → Bool
  | sweep _ | starting _ => true
  | _ => false

/-- The control thread has the lock. -/
def Control.locks : Control → Bool
  | idle => false
  | _ => true

/-- The entry that the loop of `start_runatload_daemons` is at. -/
def Main.sweeping : Main → Option ℕ
  | sweep i => some i
  | _ => none

/-- The main thread is between `find_by_pid` and the end of `spawn_daemon`. -/
def Main.handles : Main → Bool
  | found _ | respawning _ => true
  | _ => false

/-- The control thread in its section, as far as `spawn_daemon`. Finding the entry and looking at
its pid is one step, as the main loop changes no label and no mark. -/
def operate (s : State) : Op → State
  | .load cfg =>
    if (s.table.findByLabel cfg.label).isSome ∨ maxDaemons ≤ s.table.ndaemons then
      { s with control := .leaving }
    else
      { s with
        table := s.table.append cfg
        control := if cfg.runAtLoad then .spawning (.before s.table.ndaemons) else .leaving }
  | .start label =>
    match s.table.findByLabel label with
    | none => { s with control := .leaving }
    | some i =>
      if 0 < (s.table.daemons i).pid then { s with control := .leaving }
      else { s with control := .spawning (.before i) }
  | .stop _ => { s with control := .leaving }
  | .unload label =>
    match s.table.findByLabel label with
    | none => { s with control := .leaving }
    | some i => { s with table := s.table.setUnloaded i, control := .leaving }

/-- One step. -/
def step (s : State) : Action → Option State
  | .loadAll cfgs =>
    match s.main, s.control with
    | .boot, .idle => some { s with table := loadAllDaemons s.table cfgs, main := .loaded }
    | _, _ => none
  | .startAll =>
    match s.main, s.control with
    | .loaded, .idle => some { s with main := .sweep 0 }
    | _, _ => none
  | .sweep =>
    match s.main with
    | .sweep i =>
      if s.table.ndaemons ≤ i then some { s with main := .waiting }
      else if (s.table.daemons i).cfg.runAtLoad then some { s with main := .starting (.before i) }
      else some { s with main := .sweep (i + 1) }
    | _ => none
  | .mainSpawn fork =>
    match s.main with
    | .starting sp => (spawnDaemon s sp fork).map fun r =>
        { r.1 with main := r.2.elim (.sweep (sp.entry + 1)) .starting }
    | .respawning sp => (spawnDaemon s sp fork).map fun r =>
        { r.1 with main := r.2.elim .waiting .respawning }
    | _ => none
  | .wait4 pid =>
    match s.main with
    | .waiting =>
      if 0 < pid ∧ (s.procs pid).any Proc.exited = true then
        some { s with procs := update s.procs pid none, main := .reaped pid }
      else none
    | _ => none
  | .find =>
    match s.main with
    | .reaped pid => some { s with main := (s.table.findByPid pid).elim .waiting .found }
    | _ => none
  | .clear =>
    match s.main with
    | .found i => some { s with
        table := s.table.setPid i 0
        main := if (s.table.daemons i).cfg.keepAlive then .respawning (.before i) else .waiting }
    | _ => none
  | .enter op =>
    match s.control with
    | .idle => if s.main.locks then none else some { s with control := .entered op }
    | _ => none
  | .operate =>
    match s.control with
    | .entered op => some (operate s op)
    | _ => none
  | .controlSpawn fork =>
    match s.control with
    | .spawning sp => (spawnDaemon s sp fork).map fun r =>
        { r.1 with control := r.2.elim .leaving .spawning }
    | _ => none
  | .leave =>
    match s.control with
    | .leaving => some { s with control := .idle }
    | _ => none
  | .exit pid =>
    match s.procs pid with
    | none => none
    | some p => some { s with procs := update s.procs pid (some { p with exited := true }) }
  | .appear pid =>
    if s.procs pid = none then some { s with procs := update s.procs pid (some ⟨none, false⟩) }
    else none
  | .vanish pid =>
    match s.procs pid with
    | some ⟨none, _⟩ => some { s with procs := update s.procs pid none }
    | _ => none

/-- At first, with the pids that are in use. -/
def boot (busy : ℕ → Bool) : State where
  table := ⟨fun _ => ⟨⟨"", false, false⟩, 0, false⟩, 0⟩
  procs pid := if busy pid then some ⟨none, false⟩ else none
  main := .boot
  control := .idle

end Asteros.Launchd.Supervision
