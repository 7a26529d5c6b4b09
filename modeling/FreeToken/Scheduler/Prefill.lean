/-
**Admission and chunked prefill.**
-/

import FreeToken.Scheduler.Cache

namespace FreeToken

/-- The rows of the page table and of the token pool. -/
structure TableManager where
  freeSlots : List Nat
  tokenPool : Nat → Nat → Token

variable (tm : TableManager)

namespace TableManager

def new (maxRunningReqs : Nat) : TableManager where
  freeSlots := List.range maxRunningReqs
  tokenPool := fun _ _ => 0

def allocate : Except Err (TableManager × Nat) :=
  match tm.freeSlots.getLast? with
  | none => .error (.index "pop from empty list")
  | some slot => .ok ({ tm with freeSlots := tm.freeSlots.dropLast }, slot)

def free (slot : Nat) : TableManager := { tm with freeSlots := tm.freeSlots ++ [slot] }

/-- `token_pool[table_idx, i : i + len(ids)] = ids`. -/
def writeTokens (tableIdx i : Nat) (ids : List Token) : TableManager :=
  { tm with
    tokenPool := fun row position =>
      if row = tableIdx ∧ i ≤ position then ids[position - i]?.getD (tm.tokenPool row position)
      else tm.tokenPool row position }

/-- `token_pool[table_idx, i:j]`. -/
def tokens (tableIdx i j : Nat) : List Token :=
  (List.range (j - i)).map fun k => tm.tokenPool tableIdx (i + k)

end TableManager

/-- One pass over the pending requests, with the budgets it spends. -/
structure PrefillAdder where
  tokenBudget : Nat
  reservedSize : Nat
  reservedSwa : Nat
  cacheManager : CacheManager
  tableManager : TableManager

structure Resource where
  cacheHandle : CacheHandle
  tableIdx : Nat
  linearSlotIdx : Option Nat
  pingPong : Option PingPong
  restoreSrc : Option Nat

variable (adder : PrefillAdder) (pending : PendingReq) (resource : Resource)

namespace PrefillAdder

def kvReservationSize (totalLen cachedLen : Nat) : Nat :=
  (divCeil totalLen adder.cacheManager.pageSize - divCeil cachedLen adder.cacheManager.pageSize) *
    adder.cacheManager.pageSize

def refuse (cm : CacheManager) (handle : CacheHandle) :
    Except Err (PrefillAdder × Option Resource) := do
  let cm ← cm.unlock handle
  pure ({ adder with cacheManager := cm }, none)

/-- The rows and slots of an admission whose gates have passed. -/
def seat (req : PendingReq) (handle : CacheHandle)
    (mambaValue : Option Nat) : Except Err (PrefillAdder × Option Resource) := do
  let cm := adder.cacheManager
  let (tm, tableIdx) ← adder.tableManager.allocate
  let cachedLen := handle.cachedLen
  let matched := cm.getMatchedIndices handle
  let (cm, tm) := if 0 < cachedLen then
      (cm.writeRow tableIdx (cachedLen - matched.length) matched,
        tm.writeTokens tableIdx 0 (req.inputIds.take cachedLen))
    else (cm, tm)
  if cm.isHybrid then
    let (pool, live) ← cm.linearStatePool.alloc 1
    let (pool, pair) ← pool.alloc 2
    pure ({ adder with cacheManager := { cm with linearStatePool := pool }, tableManager := tm },
      some ⟨handle, tableIdx, some (live.headD 0), some (pair.getD 0 0, pair.getD 1 0), mambaValue⟩)
  else
    pure ({ adder with cacheManager := cm, tableManager := tm },
      some ⟨handle, tableIdx, none, none, mambaValue⟩)

/-- `need_swa`: the window slots that the first chunk or one window takes, in whole pages. -/
def needSwa (cm : CacheManager) (extendLen : Nat) : Nat :=
  divCeil (min (max extendLen 1) cm.slidingWindowSize + 1) cm.pageSize * cm.pageSize

def tryAllocateOne (req : PendingReq) : Except Err (PrefillAdder × Option Resource) := do
  if adder.tableManager.freeSlots = [] then pure (adder, none)
  else
    let (cm, mr) ← adder.cacheManager.matchReq req
    let extendLen := req.inputLen - mr.cudaHandle.cachedLen
    let estimatedSize := adder.kvReservationSize (req.inputLen + req.outputLen)
      mr.cudaHandle.cachedLen
    if cm.availableSize < estimatedSize + adder.reservedSize then
      pure ({ adder with cacheManager := cm }, none)
    else
      let (cm, handle) := cm.lock mr.cudaHandle
      if cm.availableSize < estimatedSize + adder.reservedSize then adder.refuse cm handle
      else
        let cm := if cm.isHybrid ∧ cm.linearStatePool.numFreeSlots < 3 then cm.ensureMambaSlots 3
          else cm
        if cm.isHybrid ∧ cm.linearStatePool.numFreeSlots < 3 then adder.refuse cm handle
        else if cm.swaPaged ∧ cm.swaAvailableSize - adder.reservedSwa < needSwa cm extendLen then
          adder.refuse cm handle
        else ({ adder with cacheManager := cm } : PrefillAdder).seat req handle mr.mambaValue

/-- The chunk a sliding-window pool can back: none if no whole page is left of it. -/
def swaChunk (handle : CacheHandle) (cachedLen swaEvictedSeqlen remainLen
    chunkSize : Nat) : Option Nat :=
  let cm := adder.cacheManager
  let ps := cm.pageSize
  let newEvicted := alignDownInt ((cachedLen : Int) - cm.slidingWindowSize - ps) ps
  let selfReclaim := max 0 (newEvicted - max swaEvictedSeqlen handle.cachedLen)
  let swaBudget := cm.swaAvailableSize + selfReclaim - adder.reservedSwa
  let maxEnd := (divCeil cachedLen ps + (max swaBudget 0).toNat / ps) * ps
  let chunkSize := min chunkSize (maxEnd - cachedLen)
  if 0 < chunkSize ∧ chunkSize < remainLen then
    let aligned := alignDown (cachedLen + chunkSize) ps - cachedLen
    if aligned = 0 then none else some aligned
  else some chunkSize

/-- The end of a chunk that is not the last, on a snapshot boundary where the budget allows. -/
def alignChunk (align cachedLen chunkSize remainLen : Nat) : Nat :=
  if 1 < align ∧ 0 < chunkSize ∧ chunkSize < remainLen then
    let aligned := alignDown (cachedLen + chunkSize) align - cachedLen
    if 0 < aligned then aligned else chunkSize
  else chunkSize

/-- The request of a chunk whose size is decided. -/
def addChunk
    (cachedLen chunkSize : Nat) (nextTrackIdx : Bool) (swaEvictedSeqlen : Nat) :
    Except Err (PrefillAdder × Option Req) := do
  let chunkSize := alignChunk adder.cacheManager.prefillChunkAlign cachedLen chunkSize
    (pending.inputLen - cachedLen)
  let isChunked := decide (chunkSize < pending.inputLen - cachedLen)
  let adder := { adder with
    tokenBudget := adder.tokenBudget - chunkSize
    reservedSize := adder.reservedSize +
      adder.kvReservationSize (pending.inputLen + pending.outputLen) cachedLen
    tableManager := adder.tableManager.writeTokens resource.tableIdx cachedLen
      (slice pending.inputIds cachedLen (cachedLen + chunkSize)) }
  if isChunked ∧ pending.mmEmbeds then
    .error (.notImplemented "Multimodal prompts must fit in a single prefill chunk; increase --max-extend-tokens or shrink the prompt.")
  else
    let req ← Req.new (pending.inputIds.take (cachedLen + chunkSize)) resource.tableIdx cachedLen
      pending.outputLen pending.uid resource.cacheHandle pending.samplingParams pending.mmEmbeds
      isChunked
    pure (adder, some { req with
      linearSlotIdx := resource.linearSlotIdx
      mambaPingPong := resource.pingPong
      mambaNextTrackIdx := nextTrackIdx
      mambaRestoreSrc := resource.restoreSrc
      swaEvictedSeqlen := swaEvictedSeqlen })

def addOneReq (cachedLen : Nat) (nextTrackIdx : Bool) (swaEvictedSeqlen : Nat) :
    Except Err (PrefillAdder × Option Req) :=
  let remainLen := pending.inputLen - cachedLen
  let chunkSize := min adder.tokenBudget remainLen
  if adder.cacheManager.swaPaged then
    match adder.swaChunk resource.cacheHandle cachedLen swaEvictedSeqlen remainLen chunkSize with
    | none => .ok (adder, none)
    | some chunkSize =>
        let ps := adder.cacheManager.pageSize
        let adder := { adder with
          reservedSwa := adder.reservedSwa +
            (divCeil (cachedLen + chunkSize) ps - divCeil cachedLen ps) * ps }
        adder.addChunk pending resource cachedLen chunkSize nextTrackIdx swaEvictedSeqlen
  else adder.addChunk pending resource cachedLen chunkSize nextTrackIdx swaEvictedSeqlen

def undo : Except Err PrefillAdder := do
  let cm ← adder.cacheManager.unlock resource.cacheHandle
  let tm := adder.tableManager.free resource.tableIdx
  let cm := match resource.linearSlotIdx, resource.pingPong with
    | some live, some pair =>
        { cm with linearStatePool := cm.linearStatePool.free [live, pair.1, pair.2] }
    | _, _ => cm
  pure { adder with cacheManager := cm, tableManager := tm }

/-- `try_add_one`; the request of the chunk before comes with a continuation. -/
def tryAddOne (chunkedReq : Option Req) : Except Err (PrefillAdder × Option Req) := do
  if adder.tokenBudget = 0 then pure (adder, none)
  else
    match chunkedReq with
    | some chunk =>
        adder.addOneReq pending ⟨chunk.cacheHandle, chunk.tableIdx.getD 0, chunk.linearSlotIdx,
          chunk.mambaPingPong, none⟩ chunk.cachedLen chunk.mambaNextTrackIdx chunk.swaEvictedSeqlen
    | none =>
        let (adder, resource) ← adder.tryAllocateOne pending
        match resource with
        | none => pure (adder, none)
        | some resource =>
            let (adder, req) ← adder.addOneReq pending resource resource.cacheHandle.cachedLen
              false 0
            match req with
            | some req => pure (adder, some req)
            | none =>
                let adder ← adder.undo resource
                pure (adder, none)

end PrefillAdder

/-- The variables of a pass: the requests by name, those of the batch, the pending requests with a
chunk of theirs in it, and the first chunks to announce. -/
structure Pass where
  adder : PrefillAdder
  reqs : Nat → Req
  nextReq : Nat
  batch : List Nat
  chunkedList : List PendingReq
  promptAdmissions : List (Nat × Nat × Nat)

namespace Pass

/-- A request joins the batch under a new name. -/
def add (pass : Pass) (adder : PrefillAdder) (pending : PendingReq) (req : Req) : Pass where
  adder := adder
  reqs := Function.update pass.reqs pass.nextReq req
  nextReq := pass.nextReq + 1
  batch := pass.batch ++ [pass.nextReq]
  chunkedList := if req.chunked then
      pass.chunkedList ++ [{ pending with chunkedReq := some pass.nextReq }]
    else pass.chunkedList
  promptAdmissions := if pending.chunkedReq = none then
      pass.promptAdmissions ++ [(req.uid, pending.inputLen, req.cacheHandle.cachedLen)]
    else pass.promptAdmissions

def run (pass : Pass) : List PendingReq → Except Err Pass
  | [] => .ok pass
  | pending :: rest => do
      let (adder, req) ← pass.adder.tryAddOne pending (pending.chunkedReq.map pass.reqs)
      match req with
      | none => pure { pass with adder := adder }
      | some req => run (pass.add adder pending req) rest

end Pass

end FreeToken
