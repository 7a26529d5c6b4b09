/-
**The cache manager.**

One manager serves every model: it owns the free pages, reads and writes the page table and drives
the prefix cache, the recurrent-state pool of a hybrid model and the paged window pool of a
sliding-window model. `lazyFree` is the pending list of an open `lazy_free_region`.
-/

import FreeToken.Core
import FreeToken.KVCache.HybridRadixCache
import FreeToken.KVCache.SWARadixCache
import FreeToken.KVCache.HybridSWAPool
import FreeToken.KVCache.LinearStatePool

namespace FreeToken

inductive PrefixCache where
  | naive
  | radix (cache : RadixPrefixCache)
  | hybrid (cache : HybridRadixCache)
  | swa (cache : SWARadixCache)

structure CacheManager where
  numPages : Nat
  pageSize : Nat
  freeSlots : List Nat
  lazyFree : Option (List Nat)
  pageTable : Nat → Nat → Nat
  prefixCache : PrefixCache
  linearStatePool : LinearStatePool
  swaPool : Option HybridSWAPool
  slidingWindowSize : Nat

/-- A match: the handle and, for a hybrid cache, the slot to restore from. -/
structure MatchResult where
  cudaHandle : CacheHandle
  mambaValue : Option Nat
  deriving DecidableEq

variable (cm : CacheManager) (req : Req) (finished : Bool) (inputIds : List Token)
variable (handle : CacheHandle)

namespace CacheManager

def new (numPages pageSize : Nat) (prefixCache : PrefixCache) (linearStatePool : LinearStatePool)
    (swaPool : Option HybridSWAPool) (slidingWindowSize : Nat) : CacheManager where
  numPages := numPages
  pageSize := pageSize
  freeSlots := (List.range numPages).map (· * pageSize)
  lazyFree := none
  pageTable := fun _ _ => 0
  prefixCache := prefixCache
  linearStatePool := linearStatePool
  swaPool := swaPool
  slidingWindowSize := slidingWindowSize

def isHybrid : Bool :=
  match cm.prefixCache with
  | .hybrid _ => true
  | _ => false

def isSwa : Bool :=
  match cm.prefixCache with
  | .swa _ => true
  | _ => false

def swaPaged : Bool := cm.swaPool.isSome

def prefillChunkAlign : Nat := if cm.isHybrid then cm.pageSize else 1

/-! ### The page table -/

/-- `page_table[table_idx, i:j]`. -/
def row (tableIdx i j : Nat) : List Nat :=
  (List.range (j - i)).map fun k => cm.pageTable tableIdx (i + k)

/-- `page_table[table_idx, i : i + len(values)] = values`. -/
def writeRow (tableIdx i : Nat) (values : List Nat) : CacheManager :=
  { cm with
    pageTable := fun row position =>
      if row = tableIdx ∧ i ≤ position then values[position - i]?.getD (cm.pageTable row position)
      else cm.pageTable row position }

/-- `_write_page_table`: the allocated slots in the order of the allocation. -/
def writePageTable (cm : CacheManager) : List Nat → List (Nat × Nat × Nat) → CacheManager
  | _, [] => cm
  | allocated, (tableIdx, firstPage, lastPage) :: rest =>
      let length := (lastPage - firstPage) * cm.pageSize
      writePageTable (cm.writeRow tableIdx (firstPage * cm.pageSize) (allocated.take length))
        (allocated.drop length) rest

/-! ### Sizes -/

def evictableSize : Int :=
  match cm.prefixCache with
  | .naive => 0
  | .radix cache => cache.tier.evictableSize
  | .hybrid cache => cache.tier.evictableSize
  | .swa cache => cache.tier.evictableSize

def availableSize : Int := cm.evictableSize + cm.freeSlots.length * cm.pageSize

def mambaAvailableSize : Int :=
  cm.linearStatePool.numFreeSlots + match cm.prefixCache with
    | .hybrid cache => cache.mambaEvictable
    | _ => 0

def swaAvailableSize : Int :=
  (cm.swaPool.elim 0 fun pool => pool.swaAvailableSize) + match cm.prefixCache with
    | .swa cache => cache.swaEvictable
    | _ => 0

/-- `(used_pages, total_pages)`. -/
def pageUsage : Int × Int :=
  (cm.numPages - cm.freeSlots.length - cm.evictableSize / cm.pageSize, cm.numPages)

/-! ### Freeing -/

/-- `_free`, which inside a `lazy_free_region` only notes the pages. -/
def free (indices : List Nat) : CacheManager :=
  match cm.lazyFree with
  | some pending => { cm with lazyFree := some (pending ++ stride cm.pageSize indices) }
  | none => { cm with freeSlots := cm.freeSlots ++ stride cm.pageSize indices }

def openLazyFreeRegion : CacheManager := { cm with lazyFree := some [] }

def closeLazyFreeRegion : CacheManager :=
  { cm with freeSlots := cm.freeSlots ++ cm.lazyFree.getD [], lazyFree := none }

def freeSwa (indices : List Nat) : CacheManager :=
  { cm with swaPool := cm.swaPool.map fun pool => pool.freeSwa indices }

/-- A loop of evictions from the window tier, each of which takes at least one node out of it. -/
def ensureSwaSlotsFrom (n : Nat) : Nat → CacheManager → CacheManager
  | 0, cm => cm
  | fuel + 1, cm =>
      match cm.swaPool, cm.prefixCache with
      | some pool, .swa cache =>
          if n ≤ pool.swaAvailableSize then cm
          else
            let (cache, ev) := cache.evictSwa (n - pool.swaAvailableSize)
            if ev.swaIndices = [] then { cm with prefixCache := .swa cache }
            else
              let cm := ({ cm with prefixCache := .swa cache }.freeSwa ev.swaIndices)
              ensureSwaSlotsFrom n fuel (if ev.kvIndices = [] then cm else cm.free ev.kvIndices)
      | _, _ => cm

def ensureSwaSlots (n : Nat) : CacheManager :=
  match cm.prefixCache with
  | .swa cache => ensureSwaSlotsFrom n (cache.tier.nodes.length + 1) cm
  | _ => cm

/-- A loop of evictions of snapshots, each of which takes at least one. -/
def ensureMambaSlotsFrom (n : Nat) : Nat → CacheManager → CacheManager
  | 0, cm => cm
  | fuel + 1, cm =>
      match cm.prefixCache with
      | .hybrid cache =>
          if n ≤ cm.linearStatePool.numFreeSlots then cm
          else
            let (cache, er) := cache.evictMamba (n - cm.linearStatePool.numFreeSlots)
            if er.mambaSlots = [] then { cm with prefixCache := .hybrid cache }
            else ensureMambaSlotsFrom n fuel ({ cm with
              prefixCache := .hybrid cache
              linearStatePool := cm.linearStatePool.free er.mambaSlots }.free er.kvIndices)
      | _ => cm

def ensureMambaSlots (n : Nat) : CacheManager :=
  match cm.prefixCache with
  | .hybrid cache => ensureMambaSlotsFrom n (cache.tier.nodes.length + 1) cm
  | _ => cm

/-! ### Admission -/

/-- A multimodal request matches the empty prefix: its placeholders have the ids of other images. -/
def matchReq (req : PendingReq) : Except Err (CacheManager × MatchResult) := do
  ensure (0 < req.inputLen) "Input length must be greater than 0."
  let ids := if req.mmEmbeds then [] else req.inputIds.take (req.inputLen - 1)
  match cm.prefixCache with
  | .naive => pure (cm, ⟨NaivePrefixCache.handle, none⟩)
  | .radix cache =>
      let (cache, handle) := cache.matchPrefix ids
      pure ({ cm with prefixCache := .radix cache }, ⟨handle, none⟩)
  | .hybrid cache =>
      let (cache, m) := cache.matchPrefix ids
      pure ({ cm with prefixCache := .hybrid cache },
        ⟨{ cachedLen := m.cachedLen, node := m.node, kvIndices := m.kvIndices }, m.mambaValue⟩)
  | .swa cache =>
      let (cache, m) := cache.matchPrefix ids
      pure ({ cm with prefixCache := .swa cache },
        ⟨{ cachedLen := m.cachedLen, node := m.node, kvIndices := m.kvIndices }, none⟩)

def lock : CacheManager × CacheHandle :=
  match cm.prefixCache with
  | .naive => (cm, handle)
  | .radix cache => ({ cm with prefixCache := .radix (cache.lockHandle handle) }, handle)
  | .hybrid cache => ({ cm with prefixCache := .hybrid (cache.incLock handle.node) }, handle)
  | .swa cache =>
      let (cache, uuid) := cache.incLock handle.node
      ({ cm with prefixCache := .swa cache }, { handle with swaUuid := uuid })

def unlock : Except Err CacheManager :=
  match cm.prefixCache with
  | .naive => .ok cm
  | .radix cache => do
      let cache ← cache.unlockHandle handle
      pure { cm with prefixCache := .radix cache }
  | .hybrid cache => do
      let cache ← cache.decLock handle.node
      pure { cm with prefixCache := .hybrid cache }
  | .swa cache => do
      let cache ← cache.decLock handle.node handle.swaUuid
      pure { cm with prefixCache := .swa cache }

/-- `get_matched_indices`: a plain handle reads the tree, the others carry the indices. -/
def getMatchedIndices : List Nat :=
  match cm.prefixCache with
  | .naive => []
  | .radix cache => collectKv cache.tier.nodes handle.node
  | .hybrid _ => handle.kvIndices
  | .swa _ => handle.kvIndices

/-! ### Allocation -/

/-- The eviction behind `_allocate`: the indices it took out of the tree. -/
def evictPages (need : Nat) : Except Err (CacheManager × List Nat) :=
  match cm.prefixCache with
  | .naive => do
      let evicted ← NaivePrefixCache.evict need
      pure (cm, evicted)
  | .radix cache => do
      let (cache, evicted) ← cache.evict need
      pure ({ cm with prefixCache := .radix cache }, evicted)
  | .hybrid cache =>
      let (cache, er) := cache.evictFull need
      .ok ({ cm with
        prefixCache := .hybrid cache
        linearStatePool := cm.linearStatePool.free er.mambaSlots }, er.kvIndices)
  | .swa cache =>
      let (cache, ev) := cache.evictFull need
      .ok ({ cm with prefixCache := .swa cache }.freeSwa ev.swaIndices, ev.kvIndices)

def refill (neededPages : Nat) : Except Err CacheManager :=
  if cm.freeSlots.length < neededPages then do
    let (cm, evicted) ← cm.evictPages ((neededPages - cm.freeSlots.length) * cm.pageSize)
    let cm := { cm with freeSlots := cm.freeSlots ++ stride cm.pageSize evicted }
    ensure (neededPages ≤ cm.freeSlots.length) "Eviction did not free enough space."
    pure cm
  else .ok cm

def allocate (neededPages : Nat) : Except Err (CacheManager × List Nat) := do
  let cm ← cm.refill neededPages
  pure ({ cm with freeSlots := cm.freeSlots.drop neededPages }, cm.freeSlots.take neededPages)

/-- What `allocate_paged` allocates for each request: its row and the pages of its extend. -/
def allocationInfo (reqs : List Req) : List (Nat × Nat × Nat) :=
  reqs.filterMap fun req =>
    let firstPage := divCeil req.cachedLen cm.pageSize
    let lastPage := divCeil req.deviceLen cm.pageSize
    if firstPage < lastPage then some (req.tableIdx.getD 0, firstPage, lastPage) else none

def allocSwa (allocated : List Nat) : Except Err CacheManager :=
  if cm.swaPaged then
    let cm := cm.ensureSwaSlots allocated.length
    match cm.swaPool with
    | none => .ok cm
    | some pool => do
        let pool ← pool.allocSwa allocated
        pure { cm with swaPool := some pool }
  else .ok cm

def allocatePaged (reqs : List Req) : Except Err CacheManager :=
  let info := cm.allocationInfo reqs
  let neededPages := (info.map fun entry => entry.2.2 - entry.2.1).sum
  if 0 < neededPages then do
    let (cm, pages) ← cm.allocate neededPages
    let allocated := pageToToken cm.pageSize pages
    let cm ← cm.allocSwa allocated
    pure (cm.writePageTable allocated info)
  else .ok cm

/-! ### Before a forward -/

def releaseSwa (newEvicted : Int) : CacheManager × Req :=
  let start := max req.swaEvictedSeqlen req.cacheHandle.cachedLen
  if (start : Int) < newEvicted then
    (cm.freeSwa (cm.row (req.tableIdx.getD 0) start newEvicted.toNat),
      { req with swaEvictedSeqlen := newEvicted.toNat })
  else (cm, req)

/-- The frontier of a decoding request and its anchor, which is dropped when it would hold more than
a window and the gap. -/
def swaThreshold : Int × Option Nat :=
  let window : Int := cm.slidingWindowSize
  let threshold : Int := (req.deviceLen - 1 : Int) - window - cm.pageSize
  match req.toolcallAnchorLen with
  | none => (threshold, none)
  | some anchor =>
      let cap : Int := anchor - window - swaRetainGap
      if window + swaRetainGap < threshold - cap then (threshold, none)
      else (min threshold cap, some anchor)

/-- One request of `maybe_free_swa_out_of_window`; its first decode step is skipped. -/
def freeSwaOfDecode : CacheManager × Req :=
  if req.decodeBatchIdx < 1 then (cm, req)
  else
    let (threshold, anchor) := cm.swaThreshold req
    cm.releaseSwa { req with toolcallAnchorLen := anchor } (alignDownInt threshold cm.pageSize)

/-- One request of `free_swa_out_of_window_extend`. -/
def freeSwaOfExtend : CacheManager × Req :=
  cm.releaseSwa req
    (alignDownInt ((req.cachedLen : Int) - cm.slidingWindowSize - cm.pageSize) cm.pageSize)

/-- One request of `snapshot_toolcall_anchor`. -/
def snapshotAnchor : CacheManager × Req :=
  match req.toolcallAnchorLen, req.mambaPingPong with
  | some anchor, some pingPong =>
      if req.mambaLastTrackSeqlen.isSome ∨ req.cachedLen ≠ anchor ∨
          alignDown anchor cm.pageSize ≠ anchor then (cm, req)
      else
        let dst := pingPong.get req.mambaNextTrackIdx
        ({ cm with linearStatePool := cm.linearStatePool.copyFrom (req.linearSlotIdx.getD 0) dst },
          { req with
            mambaLastTrackSeqlen := some anchor
            mambaNextTrackIdx := !req.mambaNextTrackIdx })
  | _, _ => (cm, req)

/-! ### Commits -/

/-- `_padded_tail`: the request's own span from `start` to the end of its last page. -/
def paddedTail (start : Nat) : List Nat :=
  cm.row (req.tableIdx.getD 0) start (divCeil req.cachedLen cm.pageSize * cm.pageSize)

def freeReqSlots (keepLive : Bool) : CacheManager × Req :=
  let pair := req.mambaPingPong.elim [] fun slots => [slots.1, slots.2]
  let live := if keepLive then [] else req.linearSlotIdx.toList
  ({ cm with linearStatePool := cm.linearStatePool.free (pair ++ live) },
    { req with mambaPingPong := none, linearSlotIdx := none })

def cacheReqMultimodal : Except Err CacheManager := do
  let cm ← cm.unlock req.cacheHandle
  if finished then
    let tail := cm.paddedTail req req.cacheHandle.cachedLen
    let cm := if cm.swaPaged then cm.freeSwa tail else cm
    pure (cm.free tail)
  else pure cm

/-- `insert_prefix` of the plain and of the naive cache. -/
def insertPrefix (insertIds : List Token) (pageIndices : List Nat) :
    CacheManager × Nat × CacheHandle :=
  match cm.prefixCache with
  | .radix cache =>
      let (cache, cachedLen, handle) := cache.insertPrefix insertIds pageIndices
      ({ cm with prefixCache := .radix cache }, cachedLen, handle)
  | _ => (cm, 0, NaivePrefixCache.handle)

/-- `cache_req` of the plain and of the naive cache. -/
def cacheReqPlain : Except Err (CacheManager × Req) := do
  let tableIdx := req.tableIdx.getD 0
  let pageIndices := cm.row tableIdx 0 req.cachedLen
  let oldHandle := req.cacheHandle
  if req.mmEmbeds then
    let cm ← cm.cacheReqMultimodal req finished
    pure (cm, req)
  else
    let (cm, cachedLen, newHandle) := cm.insertPrefix (req.inputIds.take req.cachedLen) pageIndices
    let cm ← cm.unlock oldHandle
    let duplicates := slice pageIndices oldHandle.cachedLen cachedLen
    let cm := if cm.swaPaged then cm.freeSwa duplicates else cm
    let cm := cm.free duplicates
    if finished then
      let tail := cm.paddedTail req newHandle.cachedLen
      let cm := if cm.swaPaged then cm.freeSwa tail else cm
      pure (cm.free tail, req)
    else
      let cm := if oldHandle.cachedLen < cachedLen then
        cm.writeRow tableIdx oldHandle.cachedLen
          (slice (cm.getMatchedIndices newHandle) oldHandle.cachedLen cachedLen)
        else cm
      let (cm, newHandle) := cm.lock newHandle
      pure (cm, { req with cacheHandle := newHandle })

/-- `prefix_cache.insert` of a hybrid manager. -/
def hybridInsert (kvIndices : List Nat)
    (mambaValue : Nat) : CacheManager × Nat × Bool :=
  match cm.prefixCache with
  | .hybrid cache =>
      let (cache, prefixLen, mambaExist) := cache.insert inputIds kvIndices mambaValue
      ({ cm with prefixCache := .hybrid cache }, prefixLen, mambaExist)
  | _ => (cm, 0, true)

/-- The frozen slot a finishing request still holds: inserted first, both ping-pong slots consumed;
returns the floor below which the request's pages are not its own any more. -/
def consumeFreeze (pageIndices : List Nat) : CacheManager × Req × Nat :=
  let freeUpto := req.cacheHandle.cachedLen
  match req.mambaLastTrackSeqlen, req.mambaPingPong with
  | some boundary, some pingPong =>
      if 0 < boundary ∧ boundary ≤ req.cachedLen ∧ alignDown boundary cm.pageSize = boundary then
        let frozen := pingPong.get (!req.mambaNextTrackIdx)
        let (cm, prefixLen, mambaExist) := cm.hybridInsert (req.inputIds.take boundary)
          (pageIndices.take boundary) frozen
        let slots := [pingPong.1, pingPong.2].filter fun slot => mambaExist ∨ slot ≠ frozen
        let cm := { cm with linearStatePool := cm.linearStatePool.free slots }
        let cm := cm.free (slice pageIndices freeUpto (max freeUpto prefixLen))
        (cm, { req with mambaPingPong := none }, max freeUpto boundary)
      else (cm, req, freeUpto)
  | _, _ => (cm, req, freeUpto)

/-- `_cache_req_hybrid` of a finished request: donate the live slot. -/
def finishHybrid : Except Err (CacheManager × Req) := do
  let pageIndices := cm.row (req.tableIdx.getD 0) 0 req.cachedLen
  let oldHandle := req.cacheHandle
  let (cm, req, freeUpto) := cm.consumeFreeze req pageIndices
  let insertLen := alignDown req.cachedLen cm.pageSize
  if insertLen = req.cachedLen ∧ 0 < insertLen then
    let (cm, prefixLen, mambaExist) := cm.hybridInsert (req.inputIds.take insertLen)
      (pageIndices.take insertLen) (req.linearSlotIdx.getD 0)
    let cm ← cm.unlock oldHandle
    let cm := cm.free (slice pageIndices freeUpto (max freeUpto prefixLen))
    pure (cm.freeReqSlots req (!mambaExist))
  else
    let cm ← cm.unlock oldHandle
    let cm := cm.free (pageIndices.drop freeUpto)
    pure (cm.freeReqSlots req false)

/-- `prefix_cache.match_prefix` of a hybrid manager, with the lock on what it found. -/
def hybridRelock (from_ upto : Nat) : CacheManager × Req :=
  match cm.prefixCache with
  | .hybrid cache =>
      let (cache, m) := cache.matchPrefix inputIds
      let cm := { cm with prefixCache := .hybrid cache }
      let cm := if from_ < upto then
        cm.writeRow (req.tableIdx.getD 0) from_ (slice m.kvIndices from_ upto) else cm
      let (cm, handle) := cm.lock
        { cachedLen := m.cachedLen, node := m.node, kvIndices := m.kvIndices }
      (cm, { req with cacheHandle := handle })
  | _ => (cm, req)

/-- `_cache_req_hybrid` of an unfinished request: donate the frozen slot. -/
def commitHybrid : Except Err (CacheManager × Req) := do
  match req.mambaLastTrackSeqlen with
  | none => pure (cm, req)
  | some boundary =>
      if alignDown boundary cm.pageSize ≠ boundary then
        pure (cm, { req with mambaLastTrackSeqlen := none })
      else
        let pageIndices := cm.row (req.tableIdx.getD 0) 0 req.cachedLen
        let oldHandle := req.cacheHandle
        let pingPong := req.mambaPingPong.getD (0, 0)
        let frozenIdx := !req.mambaNextTrackIdx
        let (cm, prefixLen, mambaExist) := cm.hybridInsert (req.inputIds.take boundary)
          (pageIndices.take boundary) (pingPong.get frozenIdx)
        let cm ← cm.unlock oldHandle
        let cm := cm.free (slice pageIndices oldHandle.cachedLen prefixLen)
        -- the new node is locked before the replacement slot may evict snapshots
        let (cm, req) := cm.hybridRelock req (req.inputIds.take boundary) oldHandle.cachedLen
          prefixLen
        if mambaExist then pure (cm, { req with mambaLastTrackSeqlen := none })
        else
          let cm := cm.ensureMambaSlots 1
          let (pool, slots) ← cm.linearStatePool.alloc 1
          pure ({ cm with linearStatePool := pool }, { req with
              mambaPingPong := some (pingPong.set frozenIdx (slots.headD 0))
              mambaLastTrackSeqlen := none })

def cacheReqHybrid : Except Err (CacheManager × Req) := do
  if req.mmEmbeds then
    let pageIndices := cm.row (req.tableIdx.getD 0) 0 req.cachedLen
    let cm ← cm.unlock req.cacheHandle
    if finished then
      let cm := cm.free (pageIndices.drop req.cacheHandle.cachedLen)
      pure (cm.freeReqSlots req false)
    else pure (cm, req)
  else if finished then cm.finishHybrid req
  else cm.commitHybrid req

/-- `prefix_cache.insert` of a sliding-window manager. -/
def swaInsert (kvIndices : List Nat)
    (swaEvictedSeqlen updateKvAfterLen : Nat) : Except Err (CacheManager × List Nat) :=
  match cm.prefixCache with
  | .swa cache => do
      let (cache, _, freed) ← cache.insert inputIds kvIndices swaEvictedSeqlen updateKvAfterLen
      pure ({ cm with prefixCache := .swa cache }, freed)
  | _ => .ok (cm, [])

def swaInsertPages (pageIndices : List Nat) (insertLen : Nat) :
    Except Err (CacheManager × List Nat) :=
  if 0 < insertLen then
    cm.swaInsert (req.inputIds.take insertLen) (pageIndices.take insertLen) req.swaEvictedSeqlen
      req.cacheHandle.cachedLen
  else .ok (cm, [])

/-- `prefix_cache.match_prefix` of a sliding-window manager. -/
def swaMatch : CacheManager × SWARadixCache.SWAMatch :=
  match cm.prefixCache with
  | .swa cache =>
      let (cache, m) := cache.matchPrefix inputIds
      ({ cm with prefixCache := .swa cache }, m)
  | _ => (cm, ⟨[], 0, []⟩)

/-- The soft pin of the prompt's end: the window slots of its head go, its tail is stamped. -/
def retainPromptEnd : CacheManager :=
  let promptLen := alignDown (req.maxDeviceLen - req.outputLen) cm.pageSize
  if 0 < promptLen then
    let keepFrom := alignDown (promptLen - cm.slidingWindowSize - swaRetainGap) cm.pageSize
    let cm := if 0 < keepFrom then
      match cm.prefixCache with
      | .swa cache =>
          let (cache, indices) := cache.trimHeadSwa (req.inputIds.take promptLen) keepFrom
          { cm with prefixCache := .swa cache }.freeSwa indices
      | _ => cm
      else cm
    (cm.swaMatch (req.inputIds.take promptLen)).1
  else cm

/-- The lock of an unfinished request moves to its trailing window, and its row to the tree's
slots. -/
def relockSwa (insertLen : Nat) : CacheManager × Req :=
  let keepFrom := alignDown (insertLen - cm.slidingWindowSize - swaRetainGap) cm.pageSize
  let cm := if 0 < keepFrom then (cm.swaMatch (req.inputIds.take keepFrom)).1 else cm
  let (cm, m) := cm.swaMatch (req.inputIds.take insertLen)
  let cm := if 0 < m.cachedLen then cm.writeRow (req.tableIdx.getD 0) 0 m.kvIndices else cm
  let (cm, handle) := cm.lock { cachedLen := m.cachedLen, node := m.node, kvIndices := m.kvIndices }
  (cm, { req with cacheHandle := handle })

def cacheReqSwa : Except Err (CacheManager × Req) := do
  let pageIndices := cm.row (req.tableIdx.getD 0) 0 req.cachedLen
  let oldHandle := req.cacheHandle
  if req.mmEmbeds then
    let cm ← cm.unlock oldHandle
    if finished then
      let tail := cm.paddedTail req oldHandle.cachedLen
      pure ((cm.freeSwa tail).free tail, req)
    else pure (cm, req)
  else
    let insertLen := alignDown req.cachedLen cm.pageSize
    let (cm, freed) ← cm.swaInsertPages req pageIndices insertLen
    let cm ← cm.unlock oldHandle
    let cm := (cm.freeSwa freed).free freed
    if finished then
      let tail := cm.paddedTail req insertLen
      let cm := (cm.freeSwa tail).free tail
      pure (cm.retainPromptEnd req, req)
    else pure (cm.relockSwa req insertLen)

/-- The commit of a request's pages, at the end of its prefill and when it finishes. -/
def cacheReq : Except Err (CacheManager × Req) :=
  match cm.prefixCache with
  | .swa _ => cm.cacheReqSwa req finished
  | .hybrid _ => cm.cacheReqHybrid req finished
  | _ => cm.cacheReqPlain req finished

end CacheManager

end FreeToken
