/-
**The stop barrier and the steps of the frontend.**

`prepare_stop_accounting` runs under a lock of its own, so at most one caller is inside; what is
between two of its waits is one function here.

* `drainTimedOut`, `abortNext`, `barrierTimedOut`: the drain gives up, aborts and gives up again.
-/

import FreeToken.Server.ApiServer

namespace FreeToken

variable (state : Frontend)

namespace Frontend

/-! ### `prepare_stop_accounting` -/

inductive PrepareAnswer where
  | sealed (document : SealedAccounting)
  | refused (err : Err)
  | draining (state : Frontend)

/-- The start of `prepare_stop_accounting`: a state that is failed keeps its latch, and a rebuild
that is under way keeps the gate. -/
def prepareStop : PrepareAnswer :=
  match state.sealedAccounting with
  | some document => .sealed document
  | none =>
    if state.maintenanceState = .rebuilding then
      .refused (.runtime "cache rebuild is in progress; retry stop after it finishes")
    else
      .draining { state with
        maintenanceState :=
          if state.maintenanceState = .failed ∨ state.fatalError ≠ none then .failed else .stopping
        prepareStage := some .draining }

/-- The drain ran out of time: every request in flight is to be aborted, and without one there is
nothing to abort. -/
def drainTimedOut : Frontend :=
  match state.stats.inflightUids with
  | [] => { state with prepareStage := none }
  | uids => { state with prepareStage := some (.aborting uids) }

def abortNext (left : List Nat) (uid : Nat) : Frontend :=
  { state.abortUser uid with prepareStage := some (.aborting (left.erase uid)) }

def sealedDocument (now : Nat) : SealedAccounting where
  instanceId := state.instanceId
  modelId := state.servedModelName
  promptTokensTotal := state.stats.promptTokensTotal
  completionTokensTotal := state.stats.completionTokensTotal
  uptimeS := match state.readyAt with
    | some readyAt => (now - readyAt) / 1000
    | none => 0
  drainComplete := true

/-- The totals, once nothing is in flight. -/
def sealTotals (now : Nat) : Frontend :=
  { state with sealedAccounting := some (state.sealedDocument now), prepareStage := none }

/-! ### Steps -/

inductive Event where
  | backendReady (now : Nat)
  | backendFailed (message : String)
  | failPendingRebuilds (message : String)
  | failInflightRequests (message : String)
  | admitGeneration
  | sendTokenize (msg : TokenizeMsg)
  | submitted (uid : Nat)
  | discardUnsubmitted (uid : Nat)
  | listen (msg : FrontendMsg)
  | takeAcks (uid : Nat)
  | closeWait (uid : Nat)
  | abortUser (uid : Nat)
  | putDone (msg : TokenizerMsg)
  | putLost (msg : TokenizerMsg)
  | dispatchRebuild (requestId : String) (request : RebuildRequest)
  | rebuildSent (requestId : String)
  | rebuildSendError (requestId error : String)
  | rebuildReturned (requestId : String)
  | rebuildTimedOut (requestId : String)
  | prepareStop
  | drained (now : Nat)
  | drainTimedOut
  | abortNext (uid : Nat)
  | aborted
  | prepareFailed

/-- One step of the frontend; `none` where the step cannot be taken now. A call that is refused
leaves the state as it is. -/
def step : Event → Option Frontend
  | .backendReady now => some (state.markBackendReady now)
  | .backendFailed message => some (state.markBackendFailed message)
  | .failPendingRebuilds message => some (state.failPendingRebuilds message)
  | .failInflightRequests message => some (state.failInflightRequests message)
  | .admitGeneration =>
      -- Without a permit the caller keeps waiting for one.
      if state.generationGate = some 0 then none
      else match state.admitGeneration with
        | .ok (uid, state) =>
            some { state with submissions := state.submissions.insert uid .building }
        | .error _ => some state
  | .sendTokenize msg =>
      if state.submissions.lookup msg.uid = some .building then
        some { state.sendOne (.tokenize msg) with
          submissions := state.submissions.insert msg.uid .sending }
      else none
  | .submitted uid =>
      if state.submissions.lookup uid = some .sending then
        some { state with submissions := state.submissions.erase uid }
      else none
  | .discardUnsubmitted uid =>
      if uid ∈ state.submissions then
        some { state.discardUnsubmittedGeneration uid with
          submissions := state.submissions.erase uid }
      else none
  | .listen msg => some (state.listen msg)
  | .takeAcks uid => if uid ∈ state.ackMap then some (state.takeAcks uid) else none
  | .closeWait uid => some (state.closeWait uid)
  | .abortUser uid => if uid < state.uidCounter then some (state.abortUser uid) else none
  | .putDone msg =>
      if msg ∈ state.sending then
        some { state with
          sending := state.sending.erase msg
          sendTokenizer := state.sendTokenizer ++ [msg] }
      else none
  | .putLost msg =>
      if msg ∈ state.sending then some { state with sending := state.sending.erase msg } else none
  | .dispatchRebuild requestId request =>
      -- An id is drawn once.
      if requestId ∈ state.rebuildIds then none
      else match state.dispatchRebuild requestId request with
        | .ok state => some state
        | .error _ => some state
  | .rebuildSent requestId =>
      match state.rebuildCalls.lookup requestId with
      | some { sent := false, future } =>
          some { state with rebuildCalls := state.rebuildCalls.insert requestId { sent := true, future } }
      | _ => none
  | .rebuildSendError requestId error =>
      match state.rebuildCalls.lookup requestId with
      | some { sent := false, future } =>
          some (state.endRebuildCall requestId (sendErrorAnswer requestId error future))
      | _ => none
  | .rebuildReturned requestId =>
      match state.rebuildCalls.lookup requestId with
      | some { sent := true, future := .done res } => some (state.endRebuildCall requestId res)
      | _ => none
  | .rebuildTimedOut requestId =>
      if requestId ∈ state.rebuildCalls then
        some (state.endRebuildCall requestId (.timeout requestId))
      else none
  | .prepareStop =>
      if state.prepareStage = none then
        match state.prepareStop with
        | .sealed _ => some state
        | .refused _ => some state
        | .draining state => some state
      else none
  | .drained now =>
      if state.stats.active = 0 ∧
          (state.prepareStage = some .draining ∨ state.prepareStage = some .acknowledging) then
        some (state.sealTotals now)
      else none
  | .drainTimedOut =>
      if 0 < state.stats.active ∧ state.prepareStage = some .draining then some state.drainTimedOut
      else none
  | .abortNext uid =>
      match state.prepareStage with
      | some (.aborting left) => if uid ∈ left then some (state.abortNext left uid) else none
      | _ => none
  | .aborted =>
      if state.prepareStage = some (.aborting []) then
        some { state with prepareStage := some .acknowledging }
      else none
  | .prepareFailed =>
      -- An abort that could not be sent, a barrier that ran out of time, or a caller that left.
      if state.prepareStage ≠ none then some { state with prepareStage := none } else none

def run (events : List Event) : Option Frontend := events.foldlM step state

def initial (instanceId : String) (servedModelName : Option String) (limit : Nat) : Frontend :=
  { instanceId, servedModelName, generationGate := if 0 < limit then some limit else none }

end Frontend

end FreeToken
