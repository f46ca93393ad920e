import Ecco9.Library.Utf8
import Mathlib.Algebra.Group.Nat.Defs

/-! The scheduler of `server/sched.go`: the loops `processPending` and `processCompleted`, and the
goroutines they start. Steps are the sections under a mutex and the sends and receives on channels;
what a goroutine does on its own before such a section is part of it. A section under the `refMu` of
a runner that goes over several steps keeps the mutex. The channels have room for all that is
sent. -/

namespace Ecco9.Sched

open Ecco9.Library

structure LlmRequest where
  modelPath : Text
  sessionDuration : Option Int := none
  deriving DecidableEq

/-- `llama` says whether there is a llama server, and so `Options` and `model`, which `unload` clears
with it. The timer is `some true` until it fires. -/
structure RunnerRef where
  modelPath : Text := []
  refCount : Nat := 0
  llama : Bool := false
  loading : Bool := false
  sessionDuration : Int := 0
  expireTimer : Option Bool := none
  deriving DecidableEq

/-- Who has the `refMu` of a runner between two steps. -/
inductive Owner
  | free | load | completed
  deriving DecidableEq

/-- Where `processPending` is. -/
inductive Pending
  | waiting
  | scheduling (q : LlmRequest)
  | found (q : LlmRequest) (r : Nat)
  | usable (q : LlmRequest) (r : Nat)
  | fitting (q : LlmRequest) (loadedCount : Nat)
  | starting (q : LlmRequest)
  | evicting (q : LlmRequest)
  | expiring (q : LlmRequest) (r : Nat)
  | unloading (q : LlmRequest)
  deriving DecidableEq

/-- Where `processCompleted` is. -/
inductive Completed
  | waiting
  | finished (q : LlmRequest) (r : Nat)
  | expired (r : Nat)
  | recovering (r : Nat)
  deriving DecidableEq

structure Scheduler where
  /-- `envconfig.MaxRunners()` -/
  maxRunners : Nat
  keepAlive : Int
  /-- the entries of the map, by the runners that were created -/
  loaded : List Nat := []
  runner : Nat → RunnerRef := fun _ => {}
  refMu : Nat → Owner := fun _ => .free
  created : Nat := 0
  pendingReqCh : List LlmRequest := []
  finishedReqCh : List LlmRequest := []
  expiredCh : List Nat := []
  unloadedCh : Nat := 0
  pending : Pending := .waiting
  completed : Completed := .waiting
  /-- goroutines that wait for a llama server to run -/
  loading : List (Nat × LlmRequest) := []
  /-- goroutines that wait for the context of a request that has its runner -/
  watching : List LlmRequest := []
  delayed : List LlmRequest := []
  retrying : List Nat := []
  /-- timers that have fired, and wait for the `refMu` -/
  fired : List Nat := []
  expireCalls : List Nat := []
  /-- the requests that were sent a runner and whose finished event is not processed yet -/
  granted : List (LlmRequest × Nat) := []

def Scheduler.setRunner (s : Scheduler) (r : Nat) (f : RunnerRef → RunnerRef) : Scheduler :=
  { s with runner := fun k => if k = r then f (s.runner k) else s.runner k }

def Scheduler.setRefMu (s : Scheduler) (r : Nat) (owner : Owner) : Scheduler :=
  { s with refMu := fun k => if k = r then owner else s.refMu k }

/-- `s.loaded[path]`. -/
def Scheduler.loadedFor (s : Scheduler) (path : Text) : Option Nat :=
  s.loaded.find? fun r => (s.runner r).modelPath = path

def RunnerRef.stopTimer (x : RunnerRef) : RunnerRef := { x with expireTimer := none }

/-- `unload`. -/
def RunnerRef.unload (x : RunnerRef) : RunnerRef := { x.stopTimer with llama := false }

/-- `refCount--` of a `uint`. -/
def RunnerRef.release (x : RunnerRef) : RunnerRef :=
  { x with refCount := if x.refCount = 0 then 2 ^ 64 - 1 else x.refCount - 1 }

/-- A request is sent the runner, and a goroutine waits for its context. -/
def Scheduler.grant (s : Scheduler) (q : LlmRequest) (r : Nat) : Scheduler :=
  { s with watching := s.watching ++ [q], granted := s.granted ++ [(q, r)] }

def Scheduler.sendExpired (s : Scheduler) (r : Nat) : Scheduler :=
  { s with expiredCh := s.expiredCh ++ [r] }

/-! ### `processPending` -/

def Scheduler.receivePending (s : Scheduler) (cancelled : Bool) : Option Scheduler :=
  match s.pending, s.pendingReqCh with
  | .waiting, q :: rest =>
    some { s with
      pendingReqCh := rest, pending := if cancelled then .waiting else .scheduling q }
  | _, _ => none

def Scheduler.ignoreUnloaded (s : Scheduler) : Option Scheduler :=
  match s.pending, s.unloadedCh with
  | .waiting, n + 1 => some { s with unloadedCh := n }
  | _, _ => none

/-- The section under `loadedMu` at the head of the loop, and the decision it leads to. -/
def Scheduler.schedule (s : Scheduler) : Option Scheduler :=
  match s.pending with
  | .scheduling q =>
    match s.loadedFor q.modelPath with
    | some r => some { s with pending := .found q r }
    | none =>
      if s.maxRunners > 0 ∧ s.loaded.length ≥ s.maxRunners then
        some { s with pending := .evicting q }
      else some { s with pending := .fitting q s.loaded.length }
  | _ => none

/-- `needsReload`; `differs` when the options or adapters do, or the server does not answer. -/
def Scheduler.needsReload (s : Scheduler) (differs : Bool) : Option Scheduler :=
  match s.pending with
  | .found q r =>
    if s.refMu r ≠ .free then none
    else if !(s.runner r).llama || differs then some { s with pending := .expiring q r }
    else some { s with pending := .usable q r }
  | _ => none

def Scheduler.useLoadedRunner (s : Scheduler) : Option Scheduler :=
  match s.pending with
  | .usable q r =>
    if s.refMu r ≠ .free then none
    else
      let s := s.setRunner r fun x => { x.stopTimer with
        refCount := x.refCount + 1
        sessionDuration := q.sessionDuration.getD x.sessionDuration }
      some { s.grant q r with pending := .waiting }
  | _ => none

/-- What the memory of the GPUs, or that of the system, leads to. -/
inductive Fit
  | fails | load | unload | delay
  deriving DecidableEq

/-- The branch in which a model may be loaded; the first one is not delayed, and has nothing to
unload. `automatic` is the setting that is chosen where there is none. -/
def Scheduler.fit (s : Scheduler) (choice : Fit) (automatic : Nat) : Option Scheduler :=
  match s.pending with
  | .fitting q loadedCount =>
    let s := { s with maxRunners := if s.maxRunners = 0 then automatic else s.maxRunners }
    match choice with
    | .fails => some { s with pending := .waiting }
    | .load => some { s with pending := .starting q }
    | .unload => if loadedCount = 0 then none else some { s with pending := .evicting q }
    | .delay =>
      if loadedCount = 0 then none
      else some { s with pending := .waiting, delayed := s.delayed ++ [q] }
  | _ => none

/-- The runner is the entry of its path from now on, in the place of an older one. -/
def Scheduler.insert (s : Scheduler) (q : LlmRequest) : Scheduler :=
  let r := s.created
  { s.setRunner r fun _ => {
      modelPath := q.modelPath, llama := true, loading := true
      sessionDuration := q.sessionDuration.getD s.keepAlive } with
    loaded := (s.loaded.filter fun k => (s.runner k).modelPath ≠ q.modelPath) ++ [r]
    refMu := fun k => if k = r then .load else s.refMu k
    created := r + 1
    loading := s.loading ++ [(r, q)]
    pending := .waiting }

/-- `load`, up to the start of its goroutine; `ok` when the llama server was started. -/
def Scheduler.load (s : Scheduler) (ok : Bool) : Option Scheduler :=
  match s.pending with
  | .starting q =>
    if !ok then some { s with pending := .waiting }
    else
      match s.loadedFor q.modelPath with
      | none => some (s.insert q)
      | some old => if s.refMu old ≠ .free then none else
        some ((s.setRunner old RunnerRef.unload).insert q)
  | _ => none

/-- `findRunnerToUnload`, which finds an idle runner or the one with the shortest duration. -/
def Scheduler.findRunnerToUnload (s : Scheduler) (victim : Nat) : Option Scheduler :=
  match s.pending with
  | .evicting q =>
    if s.loaded = [] then some { s with pending := .scheduling q }
    else if victim ∈ s.loaded then some { s with pending := .expiring q victim }
    else none
  | _ => none

/-- A runner is to expire as soon as it is idle. -/
def Scheduler.expireNow (s : Scheduler) (r : Nat) : Scheduler :=
  let s := s.setRunner r fun x => { x.stopTimer with sessionDuration := 0 }
  if (s.runner r).refCount = 0 then s.sendExpired r else s

def Scheduler.triggerExpire (s : Scheduler) : Option Scheduler :=
  match s.pending with
  | .expiring q r =>
    if s.refMu r ≠ .free then none else some { s.expireNow r with pending := .unloading q }
  | _ => none

def Scheduler.receiveUnloaded (s : Scheduler) : Option Scheduler :=
  match s.pending, s.unloadedCh with
  | .unloading q, n + 1 => some { s with unloadedCh := n, pending := .scheduling q }
  | _, _ => none

/-! ### Goroutines -/

/-- `WaitUntilRunning` returns. -/
def Scheduler.running (s : Scheduler) (r : Nat) (q : LlmRequest) (ok : Bool) : Option Scheduler :=
  if (r, q) ∉ s.loading then none
  else
    let s := { s with loading := s.loading.erase (r, q) }
    if ok then
      let s := s.setRunner r fun x => { x with refCount := x.refCount + 1, loading := false }
      some ((s.grant q r).setRefMu r .free)
    else some ((s.sendExpired r).setRefMu r .free)

/-- The context of a request is done. -/
def Scheduler.watch (s : Scheduler) (q : LlmRequest) : Option Scheduler :=
  if q ∉ s.watching then none
  else some { s with watching := s.watching.erase q, finishedReqCh := s.finishedReqCh ++ [q] }

def Scheduler.requeue (s : Scheduler) (q : LlmRequest) : Option Scheduler :=
  if q ∉ s.delayed then none
  else some { s with delayed := s.delayed.erase q, pendingReqCh := s.pendingReqCh ++ [q] }

def Scheduler.retry (s : Scheduler) (r : Nat) : Option Scheduler :=
  if r ∉ s.retrying then none
  else some ({ s with retrying := s.retrying.erase r }.sendExpired r)

def Scheduler.timerFires (s : Scheduler) (r : Nat) : Option Scheduler :=
  if (s.runner r).expireTimer ≠ some true then none
  else some { s.setRunner r fun x => { x with expireTimer := some false } with
    fired := s.fired ++ [r] }

def Scheduler.timerExpires (s : Scheduler) (r : Nat) : Option Scheduler :=
  if r ∉ s.fired ∨ s.refMu r ≠ .free then none
  else some (({ s with fired := s.fired.erase r }.setRunner r RunnerRef.stopTimer).sendExpired r)

/-- `expireRunner`, which finds the runner under one mutex and expires it under another. -/
def Scheduler.expireRunner (s : Scheduler) (path : Text) : Option Scheduler :=
  match s.loadedFor path with
  | none => some s
  | some r => some { s with expireCalls := s.expireCalls ++ [r] }

def Scheduler.expireRunnerNow (s : Scheduler) (r : Nat) : Option Scheduler :=
  if r ∉ s.expireCalls ∨ s.refMu r ≠ .free then none
  else some ({ s with expireCalls := s.expireCalls.erase r }.expireNow r)

/-! ### `processCompleted` -/

/-- The finished event of `q` is processed, as far as it can be. -/
def Scheduler.processed (s : Scheduler) (q : LlmRequest) : Scheduler :=
  { s with completed := .waiting, granted := s.granted.eraseP fun g => g.1 = q }

def Scheduler.receiveFinished (s : Scheduler) : Option Scheduler :=
  match s.completed, s.finishedReqCh with
  | .waiting, q :: rest =>
    let s := { s with finishedReqCh := rest }
    match s.loadedFor q.modelPath with
    | none => some (s.processed q)
    | some r => some { s with completed := .finished q r }
  | _, _ => none

def Scheduler.finish (s : Scheduler) : Option Scheduler :=
  match s.completed with
  | .finished q r =>
    if s.refMu r ≠ .free then none
    else
      let s := (s.setRunner r RunnerRef.release).processed q
      if (s.runner r).refCount ≠ 0 then some s
      else if (s.runner r).sessionDuration ≤ 0 then
        some ((s.setRunner r RunnerRef.stopTimer).sendExpired r)
      else some (s.setRunner r fun x => { x with expireTimer := some true })
  | _ => none

def Scheduler.receiveExpired (s : Scheduler) : Option Scheduler :=
  match s.completed, s.expiredCh with
  | .waiting, r :: rest =>
    if s.refMu r ≠ .free then none
    else
      let s := { s with expiredCh := rest }
      if (s.runner r).refCount > 0 then some { s with retrying := s.retrying ++ [r] }
      else some { s.setRefMu r .completed with completed := .expired r }
  | _, _ => none

/-- The section under `loadedMu` of an expired event. -/
def Scheduler.unloadExpired (pid : Nat → Int) (s : Scheduler) : Option Scheduler :=
  match s.completed with
  | .expired r =>
    match s.loadedFor (s.runner r).modelPath with
    | none => some { s.setRefMu r .free with completed := .waiting }
    | some runnerToUnload =>
      if pid r ≠ pid runnerToUnload then
        some { (s.setRunner r RunnerRef.unload).setRefMu r .free with completed := .waiting }
      else
        some { s.setRunner r RunnerRef.unload with
          loaded := s.loaded.filter fun k => (s.runner k).modelPath ≠ (s.runner r).modelPath
          completed := .recovering r }
  | _ => none

/-- The memory is free again. -/
def Scheduler.recovered (s : Scheduler) : Option Scheduler :=
  match s.completed with
  | .recovering r =>
    some { s.setRefMu r .free with unloadedCh := s.unloadedCh + 1, completed := .waiting }
  | _ => none

/-! ### Runs -/

inductive Event
  | getRunner (q : LlmRequest)
  | receivePending (cancelled : Bool)
  | ignoreUnloaded
  | schedule
  | needsReload (differs : Bool)
  | useLoadedRunner
  | fit (choice : Fit) (automatic : Nat)
  | load (ok : Bool)
  | findRunnerToUnload (victim : Nat)
  | triggerExpire
  | receiveUnloaded
  | running (r : Nat) (q : LlmRequest) (ok : Bool)
  | watch (q : LlmRequest)
  | requeue (q : LlmRequest)
  | retry (r : Nat)
  | timerFires (r : Nat)
  | timerExpires (r : Nat)
  | expireRunner (path : Text)
  | expireRunnerNow (r : Nat)
  | receiveFinished
  | finish
  | receiveExpired
  | unloadExpired
  | recovered

/-- One step; `pid` gives the process of the llama server of each runner. -/
def Event.apply (pid : Nat → Int) (s : Scheduler) : Event → Option Scheduler
  | getRunner q => some { s with pendingReqCh := s.pendingReqCh ++ [q] }
  | receivePending cancelled => s.receivePending cancelled
  | ignoreUnloaded => s.ignoreUnloaded
  | schedule => s.schedule
  | needsReload differs => s.needsReload differs
  | useLoadedRunner => s.useLoadedRunner
  | fit choice automatic => s.fit choice automatic
  | load ok => s.load ok
  | findRunnerToUnload victim => s.findRunnerToUnload victim
  | triggerExpire => s.triggerExpire
  | receiveUnloaded => s.receiveUnloaded
  | running r q ok => s.running r q ok
  | watch q => s.watch q
  | requeue q => s.requeue q
  | retry r => s.retry r
  | timerFires r => s.timerFires r
  | timerExpires r => s.timerExpires r
  | expireRunner path => s.expireRunner path
  | expireRunnerNow r => s.expireRunnerNow r
  | receiveFinished => s.receiveFinished
  | finish => s.finish
  | receiveExpired => s.receiveExpired
  | unloadExpired => s.unloadExpired pid
  | recovered => s.recovered

/-- A run of a scheduler from its start on, whatever comes next at each step. -/
def run (pid : Nat → Int) (maxRunners : Nat) (keepAlive : Int) (events : List Event) :
    Option Scheduler :=
  events.foldlM (Event.apply pid) { maxRunners, keepAlive }

end Ecco9.Sched
