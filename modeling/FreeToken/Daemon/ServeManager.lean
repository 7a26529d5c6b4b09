/-
**The supervisor of the serve process.**

`ServeManager` owns at most one child. Its calls run under the lifecycle lock, one transaction at a
time; the monitor of a child reaps it without that lock. Every section under the condition's lock and
every call to the outside is one step here, so that whatever can come between two of them does.

`history` records what the clients and the system see, in order; nothing reads it. What only the
status page shows (exit codes, times, log lines) is left out, and so are the receipts, of which only
matters whether one is durable.
-/

import Mathlib.Logic.Function.Basic

namespace FreeToken

structure ServeConfig where
  model : String
  port : Nat
  args : List String
  deriving DecidableEq, Repr

structure Child where
  object : Nat
  pid : Nat
  starttime : Option Nat
  logPath : Option String
  deriving DecidableEq, Repr

structure ServeState where
  model : String
  port : Nat
  pid : Nat
  args : List String
  starttime : Option Nat
  logPath : Option String
  deriving DecidableEq, Repr

/-- What `_persist` saves. -/
def Child.record (child : Child) (cfg : ServeConfig) : ServeState where
  model := cfg.model
  port := cfg.port
  pid := child.pid
  args := cfg.args
  starttime := child.starttime
  logPath := child.logPath

def Child.identity (child : Child) : Nat × Option Nat := (child.pid, child.starttime)

/-- The state that the condition guards; the model, the port and the arguments are written
together. -/
structure ServeManager where
  child : Option Child := none
  config : Option ServeConfig := none
  stopping : Bool := false
  starting : Bool := false
  stopRequested : Bool := false
  shutdownRequested : Bool := false

inductive LifecycleCall where
  | start (cfg : ServeConfig) (auto : Bool)
  | stop
  | shutdown
  | switch (cfg : ServeConfig)
  deriving DecidableEq, Repr

inductive LifecycleAnswer where
  | started (child : Child)
  | idempotent (pid : Nat)
  | aborted
  | conflict
  | stopped (already : Bool)
  | raised
  deriving DecidableEq, Repr

inductive CallStage where
  /-- Before the first section of `_start`. -/
  | admission
  /-- Woken up by the end of a spawn in flight. -/
  | admissionLoop
  /-- `_spawn_fn` is called. -/
  | spawning
  /-- It raised; `_starting` is still set. -/
  | spawnFailed
  /-- It returned; before the second section of `_start`. -/
  | spawned (child : Child)
  /-- Before `_persist`. -/
  | saving (child : Child)
  /-- Before `_begin_watch`. -/
  | watching (child : Child)
  /-- Before the section in which `shutdown` closes admission. -/
  | latching
  /-- Before the first section of `_stop`. -/
  | halting
  /-- Before the accounting of the child that is stopped. -/
  | preparing (child : Child)
  /-- Before the signal. -/
  | signalling (child : Child)
  /-- Waits for the monitor to set `reaped`, after the first signal or the second. -/
  | waiting (child : Child) (killed : Bool)
  /-- Before the second signal. -/
  | killing (child : Child)
  /-- The accounting or a signal failed, or the process does not exit. -/
  | failing (child : Child)
  /-- Before the section in which `shutdown` opens admission again. -/
  | reopening
  deriving DecidableEq, Repr

namespace LifecycleCall

def entry : LifecycleCall → CallStage
  | start _ _ => .admission
  | stop | switch _ => .halting
  | shutdown => .latching

def starts : LifecycleCall → Option (ServeConfig × Bool)
  | start cfg auto => some (cfg, auto)
  | switch cfg => some (cfg, false)
  | stop | shutdown => none

def explicit : LifecycleCall → Bool
  | start _ auto => !auto
  | _ => true

end LifecycleCall

inductive ReapStage where
  | waiting
  /-- The process exited; before the first section of `_reap`. -/
  | reaping
  /-- Before the crash receipt. -/
  | accounting (wasStopping : Bool)
  /-- The receipt could not be kept. -/
  | outboxFailed (wasStopping : Bool)
  /-- Before the section that forgets the child. -/
  | forgetting (wasStopping : Bool)
  /-- Before the state file is removed. -/
  | clearing (wasStopping : Bool)
  /-- Before `reaped` is set. -/
  | signalling (wasStopping isCurrent : Bool)
  /-- Before the section that decides about a restart. -/
  | deciding (wasStopping : Bool)
  /-- Before `_restart_async` reads what to restart. -/
  | restarting
  deriving DecidableEq, Repr

inductive Moment where
  /-- A serve of an earlier daemon was found running. -/
  | adopted (child : Child) (cfg : ServeConfig)
  /-- An explicit start has cleared the intent to stop. -/
  | startMade (cfg : ServeConfig)
  /-- A process was spawned. -/
  | spawned (child : Child) (cfg : ServeConfig) (auto : Bool)
  /-- A call has returned or raised. -/
  | returned (call : LifecycleCall) (answer : LifecycleAnswer)
  deriving DecidableEq, Repr

/-- The daemon: the manager, the state file, its threads and the processes. -/
structure Daemon extends ServeManager where
  store : Option ServeState := none
  holder : Option (LifecycleCall × CallStage) := none
  /-- The monitors, by the object of their child. -/
  monitors : Nat → Option (Child × ReapStage) := fun _ => none
  /-- The restart threads that have not taken the lifecycle lock. -/
  restarts : List ServeConfig := []
  reaped : List Nat := []
  durable : List (Nat × Option Nat) := []
  /-- The objects of the processes that run. -/
  alive : List Nat := []
  /-- The object of the next child. -/
  nextObject : Nat := 0
  history : List Moment := []

variable (s : Daemon)

namespace Daemon

def goto (call : LifecycleCall) (stage : CallStage) : Daemon :=
  { s with holder := some (call, stage) }

def finish (call : LifecycleCall) (answer : LifecycleAnswer) : Daemon :=
  { s with
    holder := none
    history := s.history ++ [.returned call answer] }

/-! ### `_start` -/

/-- The loop in the first section of `_start`. -/
def admissionLoop (call : LifecycleCall) (cfg : ServeConfig) (auto : Bool) : Daemon :=
  match s.child, s.stopping with
  | some child, false =>
      if s.config = some cfg then s.finish call (.idempotent child.pid)
      else s.finish call .conflict
  | _, _ =>
      if s.starting then s.goto call .admissionLoop
      else if auto ∧ s.stopRequested then s.finish call .aborted
      else { s with starting := true }.goto call .spawning

/-- The first section of `_start`. -/
def admission (call : LifecycleCall) (cfg : ServeConfig) (auto : Bool) : Daemon :=
  if s.shutdownRequested then s.finish call (if auto then .aborted else .conflict)
  else if auto then
    if s.stopRequested then s.finish call .aborted else s.admissionLoop call cfg auto
  else
    { s with
      stopRequested := false
      history := s.history ++ [Moment.startMade cfg] }.admissionLoop call cfg auto

/-- The second section of `_start`. -/
def install (call : LifecycleCall) (cfg : ServeConfig) (child : Child) : Daemon :=
  { s with
    child := some child
    config := some cfg
    stopping := false
    starting := false }.goto call (.saving child)

/-- `_begin_watch` and the return of `_start`. -/
def watch (call : LifecycleCall) (child : Child) : Daemon :=
  { s with monitors := Function.update s.monitors child.object (some (child, .waiting)) }.finish call
    (.started child)

/-- A step of `_start`; `ok` is whether a call to the outside returned. -/
def startStep (call : LifecycleCall) (cfg : ServeConfig) (auto ok : Bool) :
    CallStage → Option Daemon
  | .admission => some (s.admission call cfg auto)
  | .admissionLoop => if s.starting then none else some (s.admissionLoop call cfg auto)
  | .spawning => if ok then none else some (s.goto call .spawnFailed)
  | .spawnFailed => some ({ s with starting := false }.finish call .raised)
  | .spawned child => some (s.install call cfg child)
  | .saving child =>
      if ok then some ({ s with store := some (child.record cfg) }.goto call (.watching child))
      else some (s.finish call .raised)
  | .watching child => if ok then some (s.watch call child) else some (s.finish call .raised)
  | _ => none

/-- `_spawn_fn` returns a process. -/
def spawnReturns (call : LifecycleCall) (cfg : ServeConfig) (auto : Bool) (pid : Nat)
    (starttime : Option Nat) (logPath : Option String) : Daemon :=
  let child : Child := ⟨s.nextObject, pid, starttime, logPath⟩
  { s with
    alive := s.alive ++ [child.object]
    nextObject := s.nextObject + 1
    history := s.history ++ [Moment.spawned child cfg auto] }.goto call (.spawned child)

/-! ### `_stop` -/

/-- `_stop` has returned: a switch goes on with its start. -/
def stopped (call : LifecycleCall) (already : Bool) : Daemon :=
  match call with
  | .switch _ => s.goto call .admission
  | _ => s.finish call (.stopped already)

/-- `_stop` has raised: `shutdown` opens admission again. -/
def stopRaised (call : LifecycleCall) : Daemon :=
  match call with
  | .shutdown => s.goto call .reopening
  | _ => s.finish call .raised

/-- The first section of `_stop`. -/
def halt (call : LifecycleCall) : Daemon :=
  let s := { s with stopRequested := true }
  if s.starting then s.goto call .halting
  else match s.child with
    | none => s.stopped call true
    | some child => { s with stopping := true }.goto call (.preparing child)

def stopFailed (call : LifecycleCall) (child : Child) : Daemon :=
  { s with stopping := if s.child = some child then false else s.stopping }.stopRaised call

/-- A step of `shutdown` and of `_stop`; `ok` is whether a call to the outside returned. A wait ends
when `reaped` is set, or else when the time is over. -/
def stopStep (call : LifecycleCall) (ok : Bool) : CallStage → Option Daemon
  | .latching => some ({ s with shutdownRequested := true }.goto call .halting)
  | .halting => some (s.halt call)
  | .preparing child =>
      if ok then some ({ s with durable := child.identity :: s.durable }.goto call (.signalling child))
      else some (s.goto call (.failing child))
  | .signalling child =>
      if child.object ∈ s.reaped then some (s.stopped call false)
      else if ok then some (s.goto call (.waiting child false))
      else some (s.goto call (.failing child))
  | .waiting child killed =>
      if child.object ∈ s.reaped then some (s.stopped call false)
      else if ok then none
      else some (s.goto call (if killed then .failing child else .killing child))
  | .killing child => some (s.goto call (if ok then .waiting child true else .failing child))
  | .failing child => some (s.stopFailed call child)
  | .reopening => some ({ s with shutdownRequested := false }.finish call .raised)
  | _ => none

def lifecycleStep (ok : Bool) : Option Daemon :=
  match s.holder with
  | none => none
  | some (call, stage) =>
      match call with
      | .start cfg auto => s.startStep call cfg auto ok stage
      | .stop | .shutdown => s.stopStep call ok stage
      | .switch cfg =>
          match s.stopStep call ok stage with
          | some next => some next
          | none => s.startStep call cfg false ok stage

/-! ### `_reap` -/

def setMonitor (child : Child) (stage : ReapStage) : Daemon :=
  { s with monitors := Function.update s.monitors child.object (some (child, stage)) }

def endMonitor (child : Child) : Daemon :=
  { s with monitors := Function.update s.monitors child.object none }

/-- The first section of `_reap`. -/
def reap (child : Child) : Daemon :=
  let wasStopping := s.stopping || s.stopRequested
  if s.child = some child then s.setMonitor child (.accounting wasStopping)
  else s.setMonitor child (.forgetting wasStopping)

def forget (child : Child) (wasStopping : Bool) : Daemon :=
  if s.child = some child then
    { s with
      child := none
      stopping := false }.setMonitor child (.clearing wasStopping)
  else s.setMonitor child (.signalling wasStopping false)

/-- A step of the monitor of a child; `autoRestart` is how the daemon was configured. -/
def monitorStep (autoRestart : Bool) (s : Daemon) (child : Child) (ok : Bool) :
    ReapStage → Option Daemon
  | .waiting => if child.object ∈ s.alive then none else some (s.setMonitor child .reaping)
  | .reaping => some (s.reap child)
  | .accounting wasStopping =>
      if child.identity ∈ s.durable then some (s.setMonitor child (.forgetting wasStopping))
      else if ok then
        some ({ s with durable := child.identity :: s.durable }.setMonitor child
          (.forgetting wasStopping))
      else some (s.setMonitor child (.outboxFailed wasStopping))
  | .outboxFailed wasStopping =>
      some ({ s with stopRequested := true }.setMonitor child (.forgetting wasStopping))
  | .forgetting wasStopping => some (s.forget child wasStopping)
  | .clearing wasStopping =>
      -- A file that cannot be removed stays.
      some ({ s with store := if ok then none else s.store }.setMonitor child
        (.signalling wasStopping true))
  | .signalling wasStopping isCurrent =>
      let s := { s with reaped := child.object :: s.reaped }
      if isCurrent then some (s.setMonitor child (.deciding wasStopping))
      else some (s.endMonitor child)
  | .deciding wasStopping =>
      if !wasStopping && autoRestart && !s.stopRequested then some (s.setMonitor child .restarting)
      else some (s.endMonitor child)
  | .restarting => some ({ s with restarts := s.restarts ++ s.config.toList }.endMonitor child)

/-! ### Runs -/

inductive Event where
  /-- A client's call takes the lifecycle lock. -/
  | call (call : LifecycleCall)
  /-- A restart thread takes it. -/
  | restart (cfg : ServeConfig)
  /-- The holder's next section, or the end of its call to the outside. -/
  | proceed (ok : Bool)
  /-- The holder's call to spawn returns a process. -/
  | spawn (pid : Nat) (starttime : Option Nat) (logPath : Option String)
  /-- A process exits. -/
  | exit (object : Nat)
  /-- The next step of a child's monitor. -/
  | monitor (object : Nat) (ok : Bool)
  deriving DecidableEq, Repr

/-- One step; `none` where it cannot be taken now. -/
def step (autoRestart : Bool) (s : Daemon) : Event → Option Daemon
  | .call call =>
      if s.holder = none ∧ call.explicit then
        some (s.goto call (call.entry))
      else none
  | .restart cfg =>
      if s.holder = none ∧ cfg ∈ s.restarts then
        some ({ s with restarts := s.restarts.erase cfg }.goto (.start cfg true) .admission)
      else none
  | .proceed ok => s.lifecycleStep ok
  | .spawn pid starttime logPath =>
      match s.holder with
      | some (call, .spawning) =>
          call.starts.map fun (cfg, auto) => s.spawnReturns call cfg auto pid starttime logPath
      | _ => none
  | .exit object =>
      if object ∈ s.alive then some { s with alive := s.alive.erase object } else none
  | .monitor object ok =>
      match s.monitors object with
      | some (child, stage) => s.monitorStep autoRestart child ok stage
      | none => none

def run (autoRestart : Bool) (s : Daemon) (events : List Event) : Option Daemon :=
  events.foldlM (step autoRestart) s

/-- The daemon after its boot: `readopt` found no serve, or one that an earlier daemon had spawned,
with its record in the state file. -/
def boot : Option (Nat × Option Nat × Option String × ServeConfig) → Daemon
  | none => {}
  | some (pid, starttime, logPath, cfg) =>
      let child : Child := ⟨0, pid, starttime, logPath⟩
      { child := some child
        config := some cfg
        store := some (child.record cfg)
        monitors := Function.update (fun _ => none) 0 (some (child, .waiting))
        alive := [0]
        nextObject := 1
        history := [.adopted child cfg] }

end Daemon

end FreeToken
