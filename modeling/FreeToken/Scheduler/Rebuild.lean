/-
**The scheduler's side of a runtime rebuild.**

What the engine makes of a rebuild is a parameter: the sizes and the cache it ends with, or a
rejection before anything was torn down, or an error that ends the worker.
-/

import FreeToken.Server.Message
import FreeToken.Scheduler.Scheduler

namespace FreeToken

structure CacheGeometry where
  numPages : Nat
  moeCacheSize : Option Nat
  numMambaSlots : Option Nat
  numSwaPages : Option Nat
  deriving DecidableEq, Repr

/-- What `rebuild_cache` comes to. -/
inductive RebuildOutcome where
  | rebuilt (cacheManager : CacheManager) (geometry : CacheGeometry)
  | rejected (error : String)
  | crashed (error : String)

/-- The scheduler with the one rebuild it may have taken on, the sizes of its pools and the results
it has sent. -/
structure RebuildScheduler where
  scheduler : Scheduler
  supportsRuntimeRebuild : Bool
  tpSize : Nat
  geometry : CacheGeometry
  pendingRebuild : Option CacheRebuildMsg := none
  results : List CacheRebuildReply := []
  /-- The rebuild that ended the worker. -/
  crashed : Option CacheRebuildMsg := none

variable (s : RebuildScheduler)

namespace RebuildScheduler

def replyRebuild (requestId status : String) (error : Option String) :
    RebuildScheduler :=
  { s with results := s.results ++
      [{ requestId := requestId
         status := status
         moeCacheSize := s.geometry.moeCacheSize.getD 0
         numPages := s.geometry.numPages
         mambaSlots := s.geometry.numMambaSlots.getD 0
         numSwaPages := s.geometry.numSwaPages.getD 0
         error := error }] }

def runnable : Bool :=
  !s.scheduler.pendingList.isEmpty || !s.scheduler.decodeManager.runningReqs.isEmpty

/-- `_process_one_msg` of a rebuild. -/
def processRebuild (msg : CacheRebuildMsg) : RebuildScheduler :=
  if s.supportsRuntimeRebuild = false then
    s.replyRebuild msg.requestId "unsupported"
      (some "this model's cache does not support runtime rebuild")
  else if msg.request.mode ≠ "if_idle" then
    s.replyRebuild msg.requestId "unsupported"
      (some ("mode '" ++ msg.request.mode ++ "' unsupported (use if_idle)"))
  else if 1 < s.tpSize then
    s.replyRebuild msg.requestId "unsupported" (some "runtime rebuild unsupported under TP > 1")
  else if s.runnable then s.replyRebuild msg.requestId "busy" none
  else { s with pendingRebuild := some msg }

/-- A rebuild is executed once nothing waits, runs or is in flight. -/
def ready : Bool := s.pendingRebuild.isSome && s.scheduler.lastData.isNone && !s.runnable

/-- `_execute_pending_rebuild`. -/
def executePending (msg : CacheRebuildMsg) : RebuildOutcome → RebuildScheduler
  | .rebuilt cacheManager geometry =>
      replyRebuild { s with
        pendingRebuild := none
        scheduler := { s.scheduler with cacheManager := cacheManager }
        geometry := geometry } msg.requestId "ok" none
  | .rejected error =>
      replyRebuild { s with pendingRebuild := none } msg.requestId "rejected" (some error)
  | .crashed _ => { s with pendingRebuild := none, crashed := some msg }

end RebuildScheduler

end FreeToken
