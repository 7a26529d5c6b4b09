/-
**The frontend of the server.**

`FrontendManager` admits requests, hands the replies to whoever waits for them and keeps the
lifecycle of the engine. `Frontend` adds what the event loop holds between two steps: the calls that
have not returned, the messages that are being put and those that were.

Every function is one step of the event loop or one section under the maintenance lock, so nothing
comes between its reads and its writes.
-/

import Mathlib.Data.List.AList
import FreeToken.Server.Stats

namespace FreeToken

inductive MaintenanceState where
  | loading
  | serving
  | rebuilding
  | stopping
  | failed
  deriving DecidableEq, Repr

namespace MaintenanceState

def name : MaintenanceState → String
  | loading => "loading"
  | serving => "serving"
  | rebuilding => "rebuilding"
  | stopping => "stopping"
  | failed => "failed"

end MaintenanceState

/-- What `dispatch_rebuild` answers: a result of the scheduler, a refusal, that delivery is unknown,
or that the time is over. -/
inductive RebuildResult where
  | replied (reply : CacheRebuildReply)
  | refused (error : String)
  | undelivered (requestId error : String)
  | timeout (requestId : String)
  deriving DecidableEq, Repr

inductive RebuildFuture where
  | pending
  | done (res : RebuildResult)
  deriving DecidableEq, Repr

structure SealedAccounting where
  instanceId : String
  modelId : Option String
  promptTokensTotal : Nat
  completionTokensTotal : Nat
  uptimeS : Nat
  drainComplete : Bool
  deriving DecidableEq, Repr

structure FrontendManager where
  instanceId : String
  servedModelName : Option String
  uidCounter : Nat := 0
  ackMap : AList (fun _ : Nat => List UserReply) := ∅
  eventMap : AList (fun _ : Nat => Bool) := ∅
  generationGate : Option Nat := none
  generationGateUids : List Nat := []
  rebuildFutures : List String := []
  activeRebuildId : Option String := none
  maintenanceState : MaintenanceState := .loading
  lastRebuild : Option CacheRebuildReply := none
  readyAt : Option Nat := none
  fatalError : Option String := none
  stats : StatsTracker := {}
  sealedAccounting : Option SealedAccounting := none

/-- Where a call of `submit_tokenize_message` is. -/
inductive Submission where
  | building
  | sending
  deriving DecidableEq, Repr

/-- A call of `dispatch_rebuild` that has not returned. -/
structure RebuildCall where
  sent : Bool := false
  future : RebuildFuture := .pending
  deriving DecidableEq, Repr

/-- Where the holder of the accounting lock is in `prepare_stop_accounting`. -/
inductive PrepareStage where
  | draining
  | aborting (left : List Nat)
  | acknowledging
  deriving DecidableEq, Repr

structure Frontend extends FrontendManager where
  submissions : AList (fun _ : Nat => Submission) := ∅
  rebuildCalls : AList (fun _ : String => RebuildCall) := ∅
  /-- The ids that rebuilds were admitted under. -/
  rebuildIds : List String := []
  /-- What the calls of `dispatch_rebuild` answered that have returned. -/
  rebuildAnswers : List (String × RebuildResult) := []
  prepareStage : Option PrepareStage := none
  /-- The messages whose `put` has not been acted on. -/
  sending : List TokenizerMsg := []
  /-- The messages in the queue to the tokenizer workers. -/
  sendTokenizer : List TokenizerMsg := []

variable (state : Frontend) (requestId : String) (uid : Nat) (message : String)

namespace Frontend

/-! ### The supervisor -/

def markBackendReady (now : Nat) : Frontend :=
  if state.maintenanceState ≠ .loading ∨ state.fatalError ≠ none then state
  else { state with readyAt := some now, maintenanceState := .serving }

def markBackendFailed : Frontend :=
  { state with fatalError := some message, maintenanceState := .failed }

/-! ### Admission -/

/-- What `new_user` raises when the gate is shut. -/
def admissionClosed : Err :=
  .runtime ("server unavailable: engine is " ++ state.maintenanceState.name)

def newUser : Except Err (Nat × Frontend) :=
  if state.maintenanceState ≠ .serving ∨ state.fatalError ≠ none then .error state.admissionClosed
  else
    let uid := state.uidCounter
    .ok (uid, { state with
      uidCounter := uid + 1
      ackMap := state.ackMap.insert uid []
      eventMap := state.eventMap.insert uid false
      stats := state.stats.onNewUser uid })

/-- `admit_generation` from the moment a permit of the gate is there; a refused call gives the
permit back. -/
def admitGeneration : Except Err (Nat × Frontend) :=
  match state.generationGate with
  | none => state.newUser
  | some permits =>
      match state.newUser with
      | .error err => .error err
      | .ok (uid, state) => .ok (uid, { state with
          generationGate := some (permits - 1)
          generationGateUids := state.generationGateUids.insert uid })

def releaseGenerationSlot : Frontend :=
  if uid ∈ state.generationGateUids then
    { state with
      generationGateUids := state.generationGateUids.erase uid
      generationGate := state.generationGate.map (· + 1) }
  else state

def discardUnsubmittedGeneration : Frontend :=
  releaseGenerationSlot { state with
    ackMap := state.ackMap.erase uid
    eventMap := state.eventMap.erase uid
    stats := state.stats.onAbort uid } uid

/-! ### The listener -/

/-- One reply: it is counted before anyone is asked whether a client still waits for it. -/
def hear (reply : UserReply) : Frontend :=
  let state := { state with stats := state.stats.observe reply }
  let state := if reply.finished then state.releaseGenerationSlot reply.uid else state
  match state.ackMap.lookup reply.uid with
  | none => state
  | some pending => { state with
      ackMap := state.ackMap.insert reply.uid (pending ++ [reply])
      eventMap := state.eventMap.insert reply.uid true }

def setResult (res : RebuildResult) : Frontend :=
  match state.rebuildCalls.lookup requestId with
  | some { sent, future := .pending } =>
      { state with rebuildCalls := state.rebuildCalls.insert requestId { sent, future := .done res } }
  | _ => state

/-- Pop a future off the map and set its result, `if fut is not None and not fut.done()`. -/
def resolveFuture (res : RebuildResult) : Frontend :=
  if requestId ∈ state.rebuildFutures then
    ({ state with rebuildFutures := state.rebuildFutures.erase requestId }).setResult requestId res
  else state

/-- The state after the result of the active rebuild: only an open gate is opened again. -/
def stateAfterRebuild (reply : CacheRebuildReply) : MaintenanceState :=
  if state.fatalError ≠ none ∨ reply.status ∉ ["ok", "busy", "rejected", "unsupported"] then .failed
  else if state.maintenanceState = .rebuilding then .serving
  else state.maintenanceState

/-- `_resolve_rebuild`: only the active operation is completed, whoever still waits for it. -/
def resolveRebuild (reply : CacheRebuildReply) : Frontend :=
  if state.activeRebuildId = some reply.requestId then
    resolveFuture { state with
      activeRebuildId := none
      lastRebuild := some reply
      maintenanceState := state.stateAfterRebuild reply } reply.requestId (.replied reply)
  else state

def listen : FrontendMsg → Frontend
  | .userReplies replies => replies.foldl hear state
  | .cacheRebuild reply => state.resolveRebuild reply

/-! ### A dead backend -/

def failPendingRebuilds : Frontend :=
  state.rebuildFutures.foldl (fun state requestId => state.resolveFuture requestId (.refused message))
    state

/-- What `fail_inflight_requests` tells a client that still waits. -/
def engineUnavailable : UserReply where
  uid := uid
  incrementalOutput := ""
  finished := true
  error := some ("engine unavailable: " ++ message)
  errorCode := some "engine_unavailable"

def failRequest (state : Frontend) (uid : Nat) : Frontend :=
  hear state (engineUnavailable uid message)

def failInflightRequests : Frontend :=
  let state := state.generationGateUids.foldl releaseGenerationSlot state
  state.ackMap.keys.foldl (failRequest message) state

/-! ### The clients -/

def sendOne (msg : TokenizerMsg) : Frontend := { state with sending := state.sending ++ [msg] }

/-- `abort_user` after its pause. -/
def abortUser : Frontend :=
  sendOne { state with
    ackMap := state.ackMap.erase uid
    eventMap := state.eventMap.erase uid
    stats := state.stats.onAbort uid } (.abort uid)

/-- A turn of `wait_for_ack`: the replies that arrived are taken. -/
def takeAcks : Frontend :=
  { state with
    ackMap := state.ackMap.insert uid []
    eventMap := state.eventMap.insert uid false }

/-- The `finally` of `wait_for_ack`. -/
def closeWait : Frontend :=
  { state with
    ackMap := state.ackMap.erase uid
    eventMap := state.eventMap.erase uid }

/-! ### Rebuilds -/

/-- What `dispatch_rebuild` answers when the gate is shut. -/
def rebuildClosed : RebuildResult := .refused "rebuild admission is closed"

/-- The gate of `dispatch_rebuild`, with the id that was drawn for the request. -/
def dispatchRebuild (request : RebuildRequest) : Except RebuildResult Frontend :=
  if state.maintenanceState ≠ .serving ∨ state.fatalError ≠ none ∨ state.activeRebuildId ≠ none then
    .error rebuildClosed
  else .ok <| sendOne { state with
      rebuildFutures := state.rebuildFutures ++ [requestId]
      rebuildCalls := state.rebuildCalls.insert requestId {}
      rebuildIds := state.rebuildIds ++ [requestId]
      activeRebuildId := some requestId
      maintenanceState := .rebuilding } (.cacheRebuild { requestId, request })

/-- What a call answers whose put raised: a result that was received outranks the error. -/
def sendErrorAnswer (error : String) : RebuildFuture → RebuildResult
  | .done res => res
  | .pending =>
      .undelivered requestId ("failed to dispatch rebuild; delivery is unknown: " ++ error)

/-- The return of `dispatch_rebuild`: the wait ends, the operation does not. -/
def endRebuildCall (answer : RebuildResult) : Frontend :=
  { state with
    rebuildFutures := state.rebuildFutures.erase requestId
    rebuildCalls := state.rebuildCalls.erase requestId
    rebuildAnswers := state.rebuildAnswers ++ [(requestId, answer)] }

end Frontend

end FreeToken
