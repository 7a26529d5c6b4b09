/-
**The expert slot cache of an offloaded mixture-of-experts model.**

The experts of all layers share one pool of device slots. A flat id is `layer * num_experts +
expert`; `slotForId` and `idOfSlot` are the two arrays the kernels keep. Every update of the map
stages the rows to fetch in `evictSlots` and `srcIndices` (the first `num_indices` entries of these
buffers) and `copyMissing` moves them.
-/

import FreeToken.Utils
import FreeToken.Lib.SlotMap
import Mathlib.Data.List.MinMax
import Mathlib.Data.List.Dedup

namespace FreeToken

/-- What is fixed when the cache is built and its banks are attached. A bank is small when its rows
are below the batch copy's threshold. -/
structure OffloadConfig (Bank Bytes : Type) where
  numLayers : Nat
  numExperts : Nat
  prefillHitD2d : Bool
  /-- The remaining conditions of `_hit_d2d_usable`. -/
  hitD2dUsable : Bool
  maxSlots : Option Nat
  /-- `layout is None and quant_format == "nvfp4_marlin"`. -/
  marlinBanks : Bool
  isCuda : Bool
  hybridMaxFetch : Int
  /-- The fetch fraction as the kernels read it, in units of `2 ^ -16`. -/
  fracQ16 : Nat
  /-- `_HYBRID_FETCH_BY_RECENCY`. -/
  byRecency : Bool
  unpinnedLayers : Nat → Bool
  smallBank : Bank → Bool
  bankSources : Nat → Nat → Bank → Bytes

def marlinMaxCacheSize : Nat := 992

structure OffloadMoeCache (Bank Bytes : Type) where
  cacheSize : Nat
  prefillOverlap : Bool
  slotForId : Nat → Option Nat
  idOfSlot : Nat → Option Nat
  usage : Nat → Nat
  step : Nat
  expertRecency : Nat → Int
  evictSlots : List Nat
  srcIndices : List Nat
  pendingSrcLayer : Option Nat
  pendingWholeLayer : Bool
  bankCaches : Nat → Bank → Bytes
  prefillBufferLayer : Nat → Option Nat
  prefillBufferReleased : Nat → Bool
  prefillHitD2dActive : Bool
  prefillSlotSnapshot : Nat → Option Nat

/-- The arrays `lru_ensure` reads and writes. -/
structure LruState where
  slotForId : Nat → Option Nat
  idOfSlot : Nat → Option Nat
  usage : Nat → Nat
  step : Nat

/-- What `lru_ensure` leaves: the arrays, the rewritten ids and the rows to fetch. -/
structure LruResult extends LruState where
  outIndices : List (Option Nat)
  srcIndices : List Nat
  evictSlots : List Nat

/-- `lru_ensure` on a cache of a size, for ids offset by a base. -/
abbrev LruEnsure := (cacheSize idBase : Nat) → LruState → List Nat → LruResult

variable {Bank Bytes : Type} (config : OffloadConfig Bank Bytes)

namespace OffloadConfig

def row (id : Nat) : Bank → Bytes :=
  config.bankSources (id / config.numExperts) (id % config.numExperts)

def base (layerId : Nat) : Nat := layerId * config.numExperts

def validateRebuild (cacheSize : Nat) : Except Err Unit :=
  if cacheSize < config.numExperts then
    .error (.value s!"cache_size {cacheSize} < num_experts {config.numExperts}")
  else
    match config.maxSlots with
    | some limit =>
        if limit < cacheSize then
          .error (.value s!"moe_cache_size={cacheSize} exceeds the expert kernel's slot limit of {limit}; pass --moe-cache-size {limit} or less, or let the default kernel serve the experts")
        else marlin
    | none => marlin
where
  marlin : Except Err Unit :=
    if config.marlinBanks ∧ marlinMaxCacheSize < cacheSize then
      .error (.value s!"moe_cache_size={cacheSize} exceeds the marlin backend's slot limit of {marlinMaxCacheSize} (vLLM moe_align_block_size caps padded experts at 1024); reduce moe_cache_size or force --quant-backend moe.nvfp4=triton")
    else .ok ()

end OffloadConfig

variable (cache : OffloadMoeCache Bank Bytes)

namespace OffloadMoeCache

def map : SlotMap Nat Nat := ⟨cache.slotForId, cache.idOfSlot⟩

/-- The constructor and `set_bank_sources`: the slot caches start with zero rows. -/
def init (zeroRow : Bank → Bytes) (cacheSize : Nat)
    (prefillOverlap : Bool) : Except Err (OffloadMoeCache Bank Bytes) := do
  config.validateRebuild cacheSize
  ensure (prefillOverlap = false ∨ 2 * config.numExperts ≤ cacheSize)
    "Prefill overlap borrows two full expert-layer buffers from the unified MoE cache, so cache_size must be at least 2 * num_experts (raise moe_cache_size or disable moe_prefill_overlap)"
  pure
    { cacheSize := cacheSize
      prefillOverlap := prefillOverlap
      slotForId := fun _ => none
      idOfSlot := fun _ => none
      usage := fun _ => 0
      step := 0
      expertRecency := fun _ => -1
      evictSlots := []
      srcIndices := []
      pendingSrcLayer := none
      pendingWholeLayer := false
      bankCaches := fun _ => zeroRow
      prefillBufferLayer := fun _ => none
      prefillBufferReleased := fun _ => true
      prefillHitD2dActive := false
      prefillSlotSnapshot := fun _ => none }

/-! ### The LRU kernel -/

def lruState : LruState := ⟨cache.slotForId, cache.idOfSlot, cache.usage, cache.step⟩

/-- The rewritten ids come with the cache. -/
def ensureExperts (lru : LruEnsure) (config : OffloadConfig Bank Bytes)
    (cache : OffloadMoeCache Bank Bytes) (layerId : Nat) (expertIds : List Nat) :
    OffloadMoeCache Bank Bytes × List (Option Nat) :=
  let res := lru cache.cacheSize (config.base layerId) cache.lruState expertIds
  ({ cache with
      slotForId := res.slotForId
      idOfSlot := res.idOfSlot
      usage := res.usage
      step := res.step
      srcIndices := res.srcIndices
      evictSlots := res.evictSlots
      pendingSrcLayer := some layerId
      pendingWholeLayer := false }, res.outIndices)

/-! ### The hybrid kernel -/

/-- The mirror's cap on this step's fetches: fixed, or the integer next to `frac * misses` at which
the slower side of the overlap is fastest. Its integers are Python's. -/
def maxFetch (numMissing : Nat) : Int :=
  if 0 < config.fracQ16 then
    let lo : Nat := numMissing * config.fracQ16 / 2 ^ 16
    let cost (f : Int) : Int :=
      max (f * (2 ^ 16 - config.fracQ16)) ((numMissing - f) * config.fracQ16)
    if cost lo ≤ cost (lo + 1) then lo else lo + 1
  else config.hybridMaxFetch

/-- `tl.maximum` and `tl.minimum` of 32-bit integers. -/
def tlMaximum (x y : BitVec 32) : BitVec 32 := if x.sle y then y else x
def tlMinimum (x y : BitVec 32) : BitVec 32 := if x.sle y then x else y

/-- `max_fetch` where the kernel has a fraction; its products are 32-bit and wrap. -/
def kernelSplit (numMissing fetchFracQ16 : BitVec 32) : BitVec 32 :=
  let lo := (numMissing * fetchFracQ16).sshiftRight 16
  let costLo := tlMaximum (lo * (65536 - fetchFracQ16)) ((numMissing - lo) * fetchFracQ16)
  let costHi := tlMaximum ((lo + 1) * (65536 - fetchFracQ16)) ((numMissing - lo - 1) * fetchFracQ16)
  if costLo.sle costHi then lo else lo + 1

/-- `num_fetch` where the kernel has a fraction. -/
def kernelFetch (numMissing fetchFracQ16 : BitVec 32) : BitVec 32 :=
  tlMinimum numMissing (kernelSplit numMissing fetchFracQ16)

/-- The kernel's number of fetches. A block has fewer than `2 ^ 31` lanes, so `num_missing` does not
wrap. -/
def kernelNumFetch (numMissing : Nat) : Int :=
  if 0 < config.fracQ16 then (kernelFetch (.ofNat 32 numMissing) (.ofNat 32 config.fracQ16)).toInt
  else min (numMissing : Int) config.hybridMaxFetch

def rewriteIds (slotForId : Nat → Option Nat) (base : Nat) (expertIds : List Nat) :
    List (Option Nat) :=
  expertIds.map fun expert => slotForId (base + expert)

instance : Preorder (WithBot Int) :=
  @WithBot.instPreorder Int Int.instLinearOrder.toPartialOrder.toPreorder

/-- The variables of the fetch loop: the arrays, the staged rows, and the lanes still to choose
from, a victim by least `u` and an expert by greatest `score`. The sentinels are `⊤` and `⊥`. -/
structure FetchLanes where
  slotForId : Nat → Option Nat
  idOfSlot : Nat → Option Nat
  usage : Nat → Nat
  evictSlots : List Nat
  srcIndices : List Nat
  u : Nat → WithTop Nat
  score : Nat → WithBot Int

/-- The victim of the next fetch: `tl.argmin(u)`. -/
def FetchLanes.victim (lanes : FetchLanes) (cacheSize : Nat) : Nat :=
  ((List.range cacheSize).argmin lanes.u).getD 0

/-- The expert of the next fetch: `tl.argmax(score)`, or the next missing one. -/
def FetchLanes.expert (lanes : FetchLanes) (config : OffloadConfig Bank Bytes)
    (missing : List Nat) : Nat :=
  if config.byRecency then ((List.range config.numExperts).argmax lanes.score).getD 0
  else missing.getD lanes.srcIndices.length 0

/-- One round of the fetch loop; `oid` is the kernel's copy of `id_of_slot` from before it. -/
def FetchLanes.fetch (lanes : FetchLanes) (oid : Nat → Option Nat) (base step victim expert : Nat) :
    FetchLanes where
  slotForId := Function.update
    (match oid victim with
      | some old => Function.update lanes.slotForId old none
      | none => lanes.slotForId) (base + expert) (some victim)
  idOfSlot := Function.update lanes.idOfSlot victim (some (base + expert))
  usage := Function.update lanes.usage victim step
  evictSlots := lanes.evictSlots ++ [victim]
  srcIndices := lanes.srcIndices ++ [expert]
  u := Function.update lanes.u victim ⊤
  score := Function.update lanes.score expert ⊥

def fetchLoop (config : OffloadConfig Bank Bytes) (cacheSize : Nat) (oid : Nat → Option Nat)
    (base step : Nat) (missing : List Nat) : Nat → FetchLanes → FetchLanes
  | 0, lanes => lanes
  | rounds + 1, lanes =>
      fetchLoop config cacheSize oid base step missing rounds
        (lanes.fetch oid base step (lanes.victim cacheSize) (lanes.expert config missing))

def missingExperts (slotForId : Nat → Option Nat) (base : Nat) (expertIds : List Nat) : List Nat :=
  (List.range config.numExperts).filter fun expert =>
    expert ∈ expertIds ∧ slotForId (base + expert) = none

def touchHits (slotForId : Nat → Option Nat) (base step : Nat) (expertIds : List Nat)
    (usage : Nat → Nat) : Nat → Nat := fun slot =>
  if ∃ expert ∈ expertIds, slotForId (base + expert) = some slot then step else usage slot

def touchRecency (base step : Nat) (expertIds : List Nat)
    (recency : Nat → Int) : Nat → Int := fun id =>
  if config.byRecency ∧ base ≤ id ∧ id - base ∈ expertIds then step else recency id

/-- The lanes before the first fetch. A slot that holds an active expert is no victim. -/
def fetchStart
    (base step : Nat) (expertIds : List Nat) : FetchLanes where
  slotForId := cache.slotForId
  idOfSlot := cache.idOfSlot
  usage := touchHits cache.slotForId base step expertIds cache.usage
  evictSlots := []
  srcIndices := []
  u := fun slot =>
    if ∃ expert ∈ expertIds, cache.idOfSlot slot = some (base + expert) then ⊤
    else (touchHits cache.slotForId base step expertIds cache.usage slot : WithTop Nat)
  score := fun expert =>
    if expert ∈ missingExperts config cache.slotForId base expertIds then
      ((cache.expertRecency (base + expert) * config.numExperts +
        (config.numExperts - 1 - expert) : Int) : WithBot Int)
    else ⊥

/-- `_ensure_experts_hybrid_kernel`. -/
def ensureExpertsHybridGpu
    (layerId : Nat) (expertIds : List Nat) : OffloadMoeCache Bank Bytes × List (Option Nat) :=
  let step := cache.step + 1
  let base := config.base layerId
  let missing := missingExperts config cache.slotForId base expertIds
  let numFetch := kernelNumFetch config missing.length
  let lanes := fetchLoop config cache.cacheSize cache.idOfSlot base step missing numFetch.toNat
    (fetchStart config cache base step expertIds)
  ({ cache with
      slotForId := lanes.slotForId
      idOfSlot := lanes.idOfSlot
      usage := lanes.usage
      step := step
      expertRecency := touchRecency config base step expertIds cache.expertRecency
      evictSlots := lanes.evictSlots
      srcIndices := lanes.srcIndices }, rewriteIds lanes.slotForId base expertIds)

/-- One fetch of the CPU mirror, which reads the map as it stands. -/
def fetchCpu (layerId step : Nat) (config : OffloadConfig Bank Bytes)
    (cache : OffloadMoeCache Bank Bytes) (expert : Nat) : OffloadMoeCache Bank Bytes :=
  let victim := ((List.range cache.cacheSize).argmin cache.usage).getD 0
  let slotForId := match cache.idOfSlot victim with
    | some old => Function.update cache.slotForId old none
    | none => cache.slotForId
  { cache with
    slotForId := Function.update slotForId (config.base layerId + expert) (some victim)
    idOfSlot := Function.update cache.idOfSlot victim (some (config.base layerId + expert))
    usage := Function.update cache.usage victim step
    evictSlots := cache.evictSlots ++ [victim]
    srcIndices := cache.srcIndices ++ [expert] }

def fetchBefore (recency : Nat → Int) (base left right : Nat) : Bool :=
  if config.byRecency ∧ recency (base + left) ≠ recency (base + right) then
    recency (base + right) < recency (base + left)
  else left ≤ right

def missingIds (slotForId : Nat → Option Nat) (base : Nat) (expertIds : List Nat) : List Nat :=
  expertIds.dedup.filter fun expert => slotForId (base + expert) = none

def ensureExpertsHybridCpu
    (layerId : Nat) (expertIds : List Nat) : OffloadMoeCache Bank Bytes × List (Option Nat) :=
  let step := cache.step + 1
  let base := config.base layerId
  let missing := (missingIds cache.slotForId base expertIds).mergeSort
    (fetchBefore config cache.expertRecency base)
  let numFetch := min (missing.length : Int) (maxFetch config missing.length)
  let start := { cache with
    step := step
    usage := touchHits cache.slotForId base step expertIds cache.usage
    evictSlots := []
    srcIndices := [] }
  let fetched := (missing.take numFetch.toNat).foldl (fetchCpu layerId step config) start
  ({ fetched with
      expertRecency := touchRecency config base step expertIds cache.expertRecency },
    rewriteIds fetched.slotForId base expertIds)

/-- The capped kernel on the GPU and its CPU mirror. -/
def ensureExpertsHybrid
    (layerId : Nat) (expertIds : List Nat) : OffloadMoeCache Bank Bytes × List (Option Nat) :=
  let cache := { cache with pendingSrcLayer := some layerId, pendingWholeLayer := false }
  if config.isCuda then ensureExpertsHybridGpu config cache layerId expertIds
  else ensureExpertsHybridCpu config cache layerId expertIds

/-! ### Whole layers -/

def storeConst {Value : Type} (memory : Nat → Value) (indices : List Nat) (value : Value) :
    Nat → Value := fun index => if index ∈ indices then value else memory index

def sameLayer (base slot : Nat) : Bool :=
  slot < cache.cacheSize ∧
    (cache.idOfSlot slot).any fun id => base ≤ id ∧ id < base + config.numExperts

/-- `_materialize_layer_kernel`: expert `e` into slot `e`. -/
def materializeLayer
    (layerId : Nat) : OffloadMoeCache Bank Bytes :=
  let base := config.base layerId
  let experts := List.range config.numExperts
  let oldIds := (experts.filter fun slot => !cache.sameLayer config base slot).filterMap
    cache.idOfSlot
  let step := cache.step + 1
  { cache with
    slotForId := fun id =>
      if base ≤ id ∧ id < base + config.numExperts then some (id - base)
      else storeConst cache.slotForId oldIds none id
    idOfSlot := fun slot =>
      if slot < config.numExperts then some (base + slot)
      else if cache.sameLayer config base slot then none
      else cache.idOfSlot slot
    usage := fun slot =>
      if slot < config.numExperts then step
      else if cache.sameLayer config base slot then 0
      else cache.usage slot
    step := step
    evictSlots := experts
    srcIndices := experts
    pendingSrcLayer := some layerId
    pendingWholeLayer := true }

/-- `_reset_cache_kernel`, and the recencies. -/
def reset : OffloadMoeCache Bank Bytes :=
  { cache with
    slotForId := fun _ => none
    idOfSlot := fun _ => none
    usage := fun _ => 0
    step := 0
    evictSlots := []
    srcIndices := []
    expertRecency := fun _ => -1 }

/-- A new pool of slots; overlap is switched off when its buffers no longer fit. -/
def rebuild (zeroRow : Bank → Bytes)
    (cache : OffloadMoeCache Bank Bytes) (cacheSize : Nat) :
    Except Err (OffloadMoeCache Bank Bytes) := do
  config.validateRebuild cacheSize
  pure
    { cache with
      cacheSize := cacheSize
      prefillOverlap := cache.prefillOverlap && !decide (cacheSize < 2 * config.numExperts)
      slotForId := fun _ => none
      idOfSlot := fun _ => none
      usage := fun _ => 0
      step := 0
      evictSlots := []
      srcIndices := []
      expertRecency := fun _ => -1
      bankCaches := fun _ => zeroRow
      prefillBufferLayer := fun _ => none
      prefillBufferReleased := fun _ => true }

/-! ### The prefill double buffer -/

def inBuffer (bufferId slot : Nat) : Bool :=
  bufferId * config.numExperts ≤ slot ∧ slot < bufferId * config.numExperts + config.numExperts

def invalidatePrefillBuffer (bufferId : Nat) : OffloadMoeCache Bank Bytes :=
  let slots := (List.range config.numExperts).map (bufferId * config.numExperts + ·)
  { cache with
    slotForId := storeConst cache.slotForId (slots.filterMap cache.idOfSlot) none
    idOfSlot := storeConst cache.idOfSlot slots none
    usage := storeConst cache.usage slots 0 }

def beginPrefill : OffloadMoeCache Bank Bytes :=
  if cache.prefillOverlap then
    let active := config.prefillHitD2d && config.hitD2dUsable &&
      !decide (cache.cacheSize ≤ 2 * config.numExperts)
    { cache with
      prefillBufferLayer := fun _ => none
      prefillBufferReleased := fun _ => true
      prefillHitD2dActive := active
      prefillSlotSnapshot := if active then cache.slotForId else cache.prefillSlotSnapshot }
  else cache

def resident (slot : Option Nat) : Bool := slot.any fun slot => 2 * config.numExperts ≤ slot

/-- The gather of a layer's resident rows into a half of the double buffer, for the big banks. -/
def gatherHits
    (layerId bufferId : Nat) : OffloadMoeCache Bank Bytes :=
  { cache with
    bankCaches := fun slot bank =>
      let hit := cache.slotForId (config.base layerId + (slot - bufferId * config.numExperts))
      if inBuffer config bufferId slot ∧ config.smallBank bank = false ∧
          resident config hit = true then
        cache.bankCaches (hit.getD 0) bank
      else cache.bankCaches slot bank }

/-- The rows of a layer from the host into a half of the double buffer: those a predicate picks. -/
def copyRows
    (layerId bufferId : Nat) (picked : Nat → Bank → Bool) : OffloadMoeCache Bank Bytes :=
  { cache with
    bankCaches := fun slot bank =>
      let expert := slot - bufferId * config.numExperts
      if inBuffer config bufferId slot ∧ picked expert bank = true then
        config.bankSources layerId expert bank
      else cache.bankCaches slot bank }

/-- `_prefetch_split`: hits by the live map, misses by the snapshot, small banks as a whole. -/
def prefetchSplit
    (layerId bufferId : Nat) : OffloadMoeCache Bank Bytes :=
  copyRows config (invalidatePrefillBuffer config (gatherHits config cache layerId bufferId)
    bufferId) layerId bufferId fun expert bank =>
      config.smallBank bank ||
        !resident config (cache.prefillSlotSnapshot (config.base layerId + expert))

/-- A whole layer into one half of the prefill double buffer, which borrows the first `2 *
num_experts` slots, from the host or partly from resident rows. -/
def prefetchPrefillLayer
    (layerId : Nat) : Except Err (OffloadMoeCache Bank Bytes) :=
  if cache.prefillOverlap = false ∨ config.numLayers ≤ layerId then .ok cache
  else
    let bufferId := layerId % 2
    if cache.prefillBufferLayer bufferId = some layerId then .ok cache
    else do
      ensure (cache.prefillBufferLayer bufferId = none ∨ cache.prefillBufferReleased bufferId)
        "Prefill overlap buffer is being reused before release"
      let filled := if cache.prefillHitD2dActive then prefetchSplit config cache layerId bufferId
        else copyRows config (invalidatePrefillBuffer config cache bufferId) layerId bufferId
          fun _ _ => true
      pure { filled with
        prefillBufferLayer := Function.update cache.prefillBufferLayer bufferId (some layerId)
        prefillBufferReleased := Function.update cache.prefillBufferReleased bufferId false }

def releasePrefillLayer (layerId : Nat) : OffloadMoeCache Bank Bytes :=
  if cache.prefillOverlap = false ∨ cache.prefillBufferLayer (layerId % 2) ≠ some layerId then
    cache
  else { cache with
    prefillBufferReleased := Function.update cache.prefillBufferReleased (layerId % 2) true }

/-! ### The copy -/

def stagedRows : List (Nat × Nat) :=
  (cache.evictSlots.zip cache.srcIndices).filter fun staged =>
    staged.1 < cache.cacheSize ∧ staged.2 < config.numExperts

def copyMissing : Except Err (OffloadMoeCache Bank Bytes) :=
  match cache.pendingSrcLayer with
  | none => .error (.assertion
      "no staged misses (ensure_experts/materialize_layer first)")
  | some layerId =>
      if config.unpinnedLayers layerId then
        if cache.pendingWholeLayer then
          .ok { cache with
            bankCaches := fun slot =>
              if slot < config.numExperts then config.bankSources layerId slot
              else cache.bankCaches slot }
        else .error (.runtime s!"layer {layerId} is unpinned: its only copy is the whole-layer pageable materialize (position == expert id); ensure_experts's LRU slot remap cannot be honored without a device alias")
      else .ok { cache with
        bankCaches := SlotMap.scatter cache.bankCaches
          ((cache.stagedRows config).map fun staged =>
            (staged.1, config.bankSources layerId staged.2)) }

end OffloadMoeCache

end FreeToken
