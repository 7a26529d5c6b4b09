/-
**Requests.**
-/

import FreeToken.KVCache.RadixCache

namespace FreeToken

/-- The fields that end a generation. -/
structure SamplingParams where
  ignoreEos : Bool
  maxTokens : Nat
  stopStrs : List (List Char)
  deriving DecidableEq, Repr

/-- `mamba_ping_pong`: two donatable slots. -/
abbrev PingPong := Nat × Nat

/-- The slot at an index, `false` for 0 and `true` for 1. -/
def PingPong.get (slots : PingPong) (idx : Bool) : Nat := if idx then slots.2 else slots.1

def PingPong.set (slots : PingPong) (idx : Bool) (slot : Nat) : PingPong :=
  if idx then (slots.1, slot) else (slot, slots.2)

/-- A request. `tableIdx` is none once it was freed (`-1`). -/
structure Req where
  inputIds : List Token
  tableIdx : Option Nat
  cachedLen : Nat
  deviceLen : Nat
  maxDeviceLen : Nat
  outputLen : Nat
  uid : Nat
  samplingParams : SamplingParams
  cacheHandle : CacheHandle
  mmEmbeds : Bool
  chunked : Bool
  linearSlotIdx : Option Nat := none
  mambaPingPong : Option PingPong := none
  mambaNextTrackIdx : Bool := false
  mambaLastTrackSeqlen : Option Nat := none
  mambaRestoreSrc : Option Nat := none
  swaEvictedSeqlen : Nat := 0
  decodeBatchIdx : Nat := 0
  toolcallAnchorLen : Option Nat := none
  aborted : Bool := false
  deriving DecidableEq, Repr

/-- A request that waits; `chunkedReq` names the `Req` of the chunk before the next one. -/
structure PendingReq where
  uid : Nat
  inputIds : List Token
  samplingParams : SamplingParams
  chunkedReq : Option Nat := none
  mmEmbeds : Bool := false
  deriving DecidableEq, Repr

def PendingReq.inputLen (req : PendingReq) : Nat := req.inputIds.length

def PendingReq.outputLen (req : PendingReq) : Nat := req.samplingParams.maxTokens

variable (req : Req)

namespace Req

/-- The constructor, with its assertion. -/
def new (inputIds : List Token) (tableIdx cachedLen outputLen uid : Nat)
    (cacheHandle : CacheHandle) (samplingParams : SamplingParams) (mmEmbeds chunked : Bool) :
    Except Err Req := do
  ensure (cachedLen < inputIds.length)
    "0 <= self.cached_len < self.device_len <= self.max_device_len"
  pure
    { inputIds := inputIds
      tableIdx := some tableIdx
      cachedLen := cachedLen
      deviceLen := inputIds.length
      maxDeviceLen := inputIds.length + outputLen
      outputLen := outputLen
      uid := uid
      samplingParams := samplingParams
      cacheHandle := cacheHandle
      mmEmbeds := mmEmbeds
      chunked := chunked }

theorem new_ok {inputIds : List Token} {tableIdx cachedLen outputLen uid : Nat}
    {cacheHandle : CacheHandle} {samplingParams : SamplingParams} {mmEmbeds chunked : Bool} {req : Req}
    (made : Req.new inputIds tableIdx cachedLen outputLen uid cacheHandle samplingParams mmEmbeds
      chunked = .ok req) :
    cachedLen < inputIds.length ∧
      { inputIds := inputIds
        tableIdx := some tableIdx
        cachedLen := cachedLen
        deviceLen := inputIds.length
        maxDeviceLen := inputIds.length + outputLen
        outputLen := outputLen
        uid := uid
        samplingParams := samplingParams
        cacheHandle := cacheHandle
        mmEmbeds := mmEmbeds
        chunked := chunked } = req := by
  obtain ⟨_, passed, done⟩ := bind_eq_ok.mp made
  exact ⟨ensure_ok passed, pure_eq_ok.mp done⟩

def remainLen : Nat := req.maxDeviceLen - req.deviceLen

def extendLen : Nat := req.deviceLen - req.cachedLen

def completeOne : Req := { req with cachedLen := req.deviceLen, deviceLen := req.deviceLen + 1 }

def appendHost (nextToken : Token) : Except Err Req :=
  if req.chunked then .error (.notImplemented "ChunkedReq should not be sampled")
  else do
    ensure (req.inputIds.length + 1 ≤ req.maxDeviceLen) "m <= self.max_device_len"
    pure { req with inputIds := req.inputIds ++ [nextToken] }

def canDecode : Bool := !req.chunked && decide (0 < req.remainLen)

end Req

end FreeToken
