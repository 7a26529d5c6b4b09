/-
**The scheduler in overlap order.**

A round receives messages, launches the next batch and then drains the batch launched one round
before. Requests are objects that several lists share, so the state keeps them by name (`reqs`) and
the lists hold names; a name is never reused.

`generated` records the sampled tokens in the order of the forwards. Nothing reads it.
-/

import FreeToken.Scheduler.Message
import FreeToken.Scheduler.Decode
import FreeToken.Scheduler.Prefill
import FreeToken.Attention.Linear

namespace FreeToken

structure SchedulerConfig where
  maxSeqLen : Nat
  prefillBudget : Nat
  eosTokenIds : List Token
  toolcallAnchorId : Option Token
  decode : List Token → List Char
  swaEvictionInterval : Nat

structure Batch where
  reqs : List Nat
  isPrefill : Bool
  deriving DecidableEq, Repr

/-- A launched batch with the token that was sampled for each request. -/
structure ForwardData where
  batch : Batch
  nextTokens : Nat → Token

structure Scheduler where
  cacheManager : CacheManager
  tableManager : TableManager
  decodeManager : DecodeManager
  reqs : Nat → Req
  nextReq : Nat
  pendingList : List PendingReq
  finishedReqs : List Nat
  pendingAbortAcks : List Nat
  abortTombstones : List Nat
  forwardIter : Nat
  lastData : Option ForwardData
  ongoing : Option ForwardData
  todo : Option (List Nat)
  newFinished : List Nat
  reply : List Reply
  out : List Reply
  generated : List (Nat × Token)

def Req.unused : Req where
  inputIds := []
  tableIdx := none
  cachedLen := 0
  deviceLen := 0
  maxDeviceLen := 0
  outputLen := 0
  uid := 0
  samplingParams := ⟨false, 0, []⟩
  cacheHandle := NaivePrefixCache.handle
  mmEmbeds := false
  chunked := false

variable (cfg : SchedulerConfig) (s : Scheduler) (cm : CacheManager) (req : Req) (nextToken : Token)

namespace Scheduler

/-- `todo` is none while messages are received. -/
def new (maxRunningReqs : Nat) : Scheduler where
  cacheManager := cm
  tableManager := TableManager.new maxRunningReqs
  decodeManager := ⟨cm.pageSize, []⟩
  reqs := fun _ => Req.unused
  nextReq := 0
  pendingList := []
  finishedReqs := []
  pendingAbortAcks := []
  abortTombstones := []
  forwardIter := 0
  lastData := none
  ongoing := none
  todo := none
  newFinished := []
  reply := []
  out := []
  generated := []

/-! ### Objects and resources -/

def setReq (name : Nat) (req : Req) : Scheduler :=
  { s with reqs := Function.update s.reqs name req }

def forBatch (body : CacheManager → Req → CacheManager × Req) : Scheduler → List Nat → Scheduler
  | s, [] => s
  | s, name :: rest =>
      let (cm, req) := body s.cacheManager (s.reqs name)
      forBatch body (({ s with cacheManager := cm } : Scheduler).setReq name req) rest

/-- `_free_req_resources`, which does nothing for a request that was freed before. -/
def freeReqResources (name : Nat) : Except Err Scheduler :=
  match (s.reqs name).tableIdx with
  | none => .ok s
  | some tableIdx => do
      let (cm, req) ← s.cacheManager.cacheReq (s.reqs name) true
      pure (({ s with
        cacheManager := cm
        tableManager := s.tableManager.free tableIdx } : Scheduler).setReq name
          { req with tableIdx := none })

def mambaSlotUsage : Int × Int :=
  if cm.isHybrid then
    let total : Int := cm.linearStatePool.numSlots - 1
    (total - cm.mambaAvailableSize, total)
  else (0, 0)

def swaTokenUsage : Int × Int :=
  match cm.swaPool with
  | none => (0, 0)
  | some pool =>
      let total : Int := pool.swaNumTokens - 1
      (total - cm.swaAvailableSize, total)

def usage : Usage where
  kvUsedPages := s.cacheManager.pageUsage.1
  kvTotalPages := s.cacheManager.pageUsage.2
  mambaUsedSlots := (mambaSlotUsage s.cacheManager).1
  mambaTotalSlots := (mambaSlotUsage s.cacheManager).2
  swaUsedTokens := (swaTokenUsage s.cacheManager).1
  swaTotalTokens := (swaTokenUsage s.cacheManager).2

def sendResult (replies : List Reply) : Scheduler := { s with out := s.out ++ replies }

/-! ### Messages -/

def tombstoneCap : Nat := 65536

def tooLong (uid inputLen maxSeqLen : Nat) : Reply :=
  .errorReply uid (s!"prompt is too long: {inputLen} tokens > {maxSeqLen} maximum " ++
    "(prompt + generation); shorten the prompt or increase the KV cache budget")
    (some "context_length_exceeded") {}

def processUser (msg : UserMsg) : Scheduler :=
  if msg.uid ∈ s.abortTombstones then
    { s with abortTombstones := s.abortTombstones.filter (· ≠ msg.uid) }
  else
    let inputLen := msg.inputIds.length
    if cfg.maxSeqLen ≤ inputLen then s.sendResult [tooLong msg.uid inputLen cfg.maxSeqLen]
    else
      let samplingParams := { msg.samplingParams with
        maxTokens := min msg.samplingParams.maxTokens (cfg.maxSeqLen - inputLen) }
      { s with pendingList := s.pendingList ++
          [{ uid := msg.uid
             inputIds := msg.inputIds
             samplingParams := samplingParams
             mmEmbeds := msg.mmEmbeds }] }

/-- `PrefillManager.abort_req`: the first pending request of a uid goes. -/
def abortPending : List PendingReq → Nat → List PendingReq × Option Nat
  | [], _ => ([], none)
  | pending :: rest, uid =>
      if pending.uid = uid then (rest, pending.chunkedReq)
      else
        let (rest, chunkedReq) := abortPending rest uid
        (pending :: rest, chunkedReq)

/-- The request object to free, taken out of the pending list or else out of the running set. -/
def takeAborted (uid : Nat) : Scheduler × Option Nat :=
  let (pendingList, chunkedReq) := abortPending s.pendingList uid
  let s := { s with pendingList := pendingList }
  match chunkedReq with
  | some name => (s, some name)
  | none =>
      let (dm, name) := s.decodeManager.abortReq s.reqs uid
      ({ s with decodeManager := dm }, name)

def inFlight (name : Nat) : Bool :=
  match s.lastData with
  | none => false
  | some data => data.batch.reqs.contains name

def entomb (tombstones : List Nat) (uid : Nat) : List Nat :=
  let tombstones := if uid ∈ tombstones then tombstones else tombstones ++ [uid]
  tombstones.drop (tombstones.length - tombstoneCap)

def freeAborted : Option Nat → Except Err Scheduler
  | none => .ok s
  | some name =>
      if s.inFlight name then .ok (s.setReq name { s.reqs name with aborted := true })
      else s.freeReqResources name

def processAbort (uid : Nat) : Except Err Scheduler := do
  let s := { s with abortTombstones := entomb s.abortTombstones uid }
  let (s, reqToFree) := s.takeAborted uid
  let s ← s.freeAborted reqToFree
  pure { s with
    pendingAbortAcks := if uid ∈ s.pendingAbortAcks then s.pendingAbortAcks
      else s.pendingAbortAcks ++ [uid] }

/-- A request or an abort arrives. -/
def processOneMsg : Msg → Except Err Scheduler
  | .user msg => .ok (s.processUser cfg msg)
  | .abort uid => s.processAbort uid

def flushAbortAcks : Scheduler :=
  let uids := s.pendingAbortAcks.insertionSort (· ≤ ·)
  { s.sendResult (uids.map fun uid => .errorReply uid "request aborted" none s.usage) with
    pendingAbortAcks := [] }

/-! ### The launch -/

/-- `PrefillManager.schedule_next_batch`: the pass, and the requests it takes off the list. -/
def schedulePrefill : Except Err (Scheduler × Option (Batch × List (Nat × Nat × Nat))) :=
  if s.pendingList = [] then .ok (s, none)
  else do
    let pass ← Pass.run
      { adder :=
          { tokenBudget := cfg.prefillBudget
            reservedSize := s.decodeManager.inflightTokens s.reqs
            reservedSwa := 0
            cacheManager := s.cacheManager
            tableManager := s.tableManager }
        reqs := s.reqs
        nextReq := s.nextReq
        batch := []
        chunkedList := []
        promptAdmissions := [] } s.pendingList
    let s := { s with
      cacheManager := pass.adder.cacheManager
      tableManager := pass.adder.tableManager
      reqs := pass.reqs
      nextReq := pass.nextReq }
    if pass.batch = [] then pure (s, none)
    else pure ({ s with pendingList := pass.chunkedList ++ s.pendingList.drop pass.batch.length },
      some (⟨pass.batch, true⟩, pass.promptAdmissions))

def scheduleNextBatch : Except Err (Scheduler × Option (Batch × List (Nat × Nat × Nat))) := do
  let (s, batch) ← s.schedulePrefill cfg
  match batch with
  | some batch => pure (s, some batch)
  | none =>
      if s.decodeManager.runningReqs = [] then pure (s, none)
      else pure (s, some (⟨s.decodeManager.byUid s.reqs, false⟩, []))

def maybeFreeSwaOutOfWindow (batch : List Nat) : Scheduler :=
  if s.cacheManager.swaPaged = false ∨ s.forwardIter % cfg.swaEvictionInterval ≠ 0 then s
  else s.forBatch CacheManager.freeSwaOfDecode batch

def freeSwaOutOfWindowExtend (batch : List Nat) : Scheduler :=
  if s.cacheManager.swaPaged = false then s else s.forBatch CacheManager.freeSwaOfExtend batch

/-- `_prepare_batch` before the pages are allocated: window slots are freed first, so that they can
back the new tokens. -/
def prepareWindow (batch : Batch) : Scheduler :=
  let s := { s with forwardIter := s.forwardIter + 1 }
  if batch.isPrefill then s.freeSwaOutOfWindowExtend batch.reqs
  else (s.maybeFreeSwaOutOfWindow cfg batch.reqs).forBatch
    (fun cm req => (cm, { req with decodeBatchIdx := req.decodeBatchIdx + 1 })) batch.reqs

/-- `_prepare_batch` up to the allocation of the pages. -/
def prepareBatch (batch : Batch) : Except Err Scheduler := do
  let s := s.prepareWindow cfg batch
  let cm ← s.cacheManager.allocatePaged (batch.reqs.map s.reqs)
  pure { s with cacheManager := cm }

def snapshotToolcallAnchor (batch : List Nat) : Scheduler :=
  if s.cacheManager.isHybrid then s.forBatch CacheManager.snapshotAnchor batch else s

/-- One request of `_restore_linear_states`. -/
def restoreLinearState : CacheManager × Req :=
  match req.mambaRestoreSrc with
  | none => (cm, req)
  | some src =>
      ({ cm with linearStatePool := cm.linearStatePool.copyFrom src (req.linearSlotIdx.getD 0) },
        { req with mambaRestoreSrc := none })

/-- What a forward does to one request's recurrent state; an extend also notes the boundary that
`build_fla_metadata` had it track. -/
def forwardState (isPrefill : Bool) (tm : TableManager) (cm : CacheManager) (req : Req) :
    CacheManager × Req :=
  let fed := tm.tokens (req.tableIdx.getD 0) req.cachedLen req.deviceLen
  if isPrefill then
    ({ cm with linearStatePool := extendState cm.linearStatePool req fed }, noteTrack req)
  else ({ cm with linearStatePool := decodeState cm.linearStatePool req fed }, req)

def writeSampled (nextTokens : Nat → Token) (reqs : Nat → Req) :
    TableManager → List Nat → TableManager
  | tm, [] => tm
  | tm, name :: rest =>
      let req := reqs name
      writeSampled nextTokens reqs
        (if req.canDecode then
          tm.writeTokens (req.tableIdx.getD 0) req.deviceLen [nextTokens name] else tm) rest

/-- `_restore_linear_states` and `_forward`. -/
def forward (batch : Batch) (nextTokens : Nat → Token) : Scheduler :=
  let s := if batch.isPrefill then s.forBatch restoreLinearState batch.reqs
    else if cfg.toolcallAnchorId.isSome then s.snapshotToolcallAnchor batch.reqs
    else s
  let s := s.forBatch (forwardState batch.isPrefill s.tableManager) batch.reqs
  let s := { s with tableManager := writeSampled nextTokens s.reqs s.tableManager batch.reqs }
  let s := s.forBatch (fun cm req => (cm, req.completeOne)) batch.reqs
  { s with
    decodeManager := s.decodeManager.filterReqs s.reqs batch.reqs
    generated := s.generated ++ ((batch.reqs.filter fun name => !(s.reqs name).chunked).map
      fun name => ((s.reqs name).uid, nextTokens name)) }

def launchBatch (nextTokens : Nat → Token) : Except Err Scheduler := do
  let (s, batch) ← s.scheduleNextBatch cfg
  match batch with
  | none => pure { s with ongoing := none }
  | some (batch, promptAdmissions) =>
      let s ← s.prepareBatch cfg batch
      let s := s.sendResult (promptAdmissions.map fun entry =>
        .promptAdmitted entry.1 entry.2.1 entry.2.2)
      pure { s.forward cfg batch nextTokens with ongoing := some ⟨batch, nextTokens⟩ }

/-- The launch, and the entry to the drain: nothing is drained when nothing was launched before. -/
def launch (nextTokens : Nat → Token) : Except Err Scheduler := do
  let s ← s.launchBatch cfg nextTokens
  match s.lastData with
  | none => pure { s.flushAbortAcks with lastData := s.ongoing, ongoing := none }
  | some data =>
      pure { s with
        cacheManager := s.cacheManager.openLazyFreeRegion
        todo := some data.batch.reqs
        newFinished := []
        reply := [] }

/-! ### The drain -/

/-- `_match_stop_str`: the first stop string in the generated tail. -/
def matchStopStr : Option (List Char) :=
  let stopStrs := req.samplingParams.stopStrs
  let promptLen := req.maxDeviceLen - req.outputLen
  if req.inputIds.length ≤ promptLen then none
  else
    let maxChars := stopStrs.foldl (fun longest stop => max longest stop.length) 0
    let tailStart := max promptLen (req.inputIds.length - (maxChars + 1))
    let tail := cfg.decode (req.inputIds.drop tailStart)
    stopStrs.find? fun stop => decide (stop <:+: tail)

structure Verdict where
  hitEos : Bool
  matchedStop : Option (List Char)
  finished : Bool

def verdict : Verdict :=
  let hitLength := decide (req.maxDeviceLen ≤ req.inputIds.length)
  let hitEos := !req.samplingParams.ignoreEos && cfg.eosTokenIds.contains nextToken
  let matchedStop := if !hitEos && !req.samplingParams.stopStrs.isEmpty then matchStopStr cfg req
    else none
  ⟨hitEos, matchedStop, hitLength || hitEos || matchedStop.isSome⟩

def tokenReply (v : Verdict) : Reply :=
  .detokenize req.uid nextToken v.finished
    (if v.finished then some (if v.hitEos || v.matchedStop.isSome then .stop else .length) else none)
    v.matchedStop
    (if req.samplingParams.stopStrs.isEmpty then none else some req.samplingParams.stopStrs) {}

/-- The tool-call opener marks the deepest boundary that survives a rewrite of the call. -/
def noteAnchor (finished : Bool) : Req :=
  if some nextToken = cfg.toolcallAnchorId ∧ req.toolcallAnchorLen = none ∧ finished = false then
    { req with toolcallAnchorLen := some req.inputIds.length }
  else req

/-- A request ends: out of the running set, its resources freed, and noted as finished. -/
def finishReq (name : Nat) : Except Err Scheduler := do
  let s ← ({ s with decodeManager := s.decodeManager.removeReq name } :
    Scheduler).freeReqResources name
  pure { s with newFinished := s.newFinished ++ [name] }

/-- A token is delivered to a request that is neither chunked nor aborted nor finished. -/
def deliver (isPrefill : Bool) (name : Nat)
    (nextToken : Token) : Except Err Scheduler := do
  let req ← (s.reqs name).appendHost nextToken
  let v := verdict cfg req nextToken
  let req := noteAnchor cfg req nextToken v.finished
  let s := { s.setReq name req with reply := s.reply ++ [tokenReply req nextToken v] }
  if v.finished then s.finishReq name
  else if isPrefill ∧ req.tableIdx.isSome then
    let (cm, req) ← s.cacheManager.cacheReq req false
    pure (({ s with cacheManager := cm } : Scheduler).setReq name req)
  else pure s

/-- One request of `_process_last_data`. -/
def drainReq (data : ForwardData) (name : Nat) : Except Err Scheduler :=
  let req := s.reqs name
  if req.chunked then
    if req.aborted then s.freeReqResources name else .ok s
  else if req.aborted then s.finishReq name
  else if name ∈ s.finishedReqs then .ok s
  else s.deliver cfg data.batch.isPrefill name (data.nextTokens name)

/-- The end of the drain: the region closes, the replies go out and after them the
acknowledgements. -/
def finishDrain : Scheduler :=
  let s := { s with
    cacheManager := s.cacheManager.closeLazyFreeRegion
    finishedReqs := s.newFinished }
  let s := { s.sendResult (s.reply.map (Reply.stamp s.usage)) with reply := [] }
  { s.flushAbortAcks with
    lastData := s.ongoing
    ongoing := none
    todo := none }

def drain : Except Err Scheduler :=
  match s.todo, s.lastData with
  | some (name :: rest), some data =>
      ({ s with todo := some rest } : Scheduler).drainReq cfg data name
  | some _, _ => .ok s.finishDrain
  | none, _ => .ok s

/-! ### Runs -/

/-- The steps of a round: messages arrive while nothing is drained, then one launch with the tokens
it samples, then the drain, a request at a time. -/
inductive Event where
  | recv (msg : Msg)
  | launch (nextTokens : Nat → Token)
  | drain

def enabled : Event → Bool
  | .drain => s.todo.isSome
  | _ => s.todo.isNone

def step : Event → Except Err Scheduler
  | .recv msg => s.processOneMsg cfg msg
  | .launch nextTokens => s.launch cfg nextTokens
  | .drain => s.drain cfg

/-- The states that a scheduler reaches, with the events that led there. -/
inductive Run (cfg : SchedulerConfig) (start : Scheduler) : List Event → Scheduler → Prop
  | nil : Run cfg start [] start
  | snoc {events : List Event} {s next : Scheduler} {event : Event} :
      Run cfg start events s → s.enabled event = true → s.step cfg event = .ok next →
      Run cfg start (events ++ [event]) next

end Scheduler

end FreeToken
