/-
**What a forward does to the recurrent-state slots.**
-/

import FreeToken.Core
import FreeToken.KVCache.LinearStatePool
import FreeToken.KVCache.HybridRadixCache

namespace FreeToken

/-- One request of `_build_track_metadata`, the deepest chunk boundary strictly inside its extend
and the ping-pong slot that receives the state there. -/
def trackBoundary (req : Req) : Option (Nat × Nat) :=
  match req.mambaPingPong with
  | none => none
  | some pingPong =>
      let chunks := (req.extendLen - 1) / chunkSize
      if chunks < 1 then none
      else some (pingPong.get req.mambaNextTrackIdx, req.cachedLen + chunks * chunkSize)

def noteTrack (req : Req) : Req :=
  match trackBoundary req with
  | none => req
  | some (_, boundary) =>
      { req with
        mambaLastTrackSeqlen := some boundary
        mambaNextTrackIdx := !req.mambaNextTrackIdx }

def gdnSlot (req : Req) : Nat := req.linearSlotIdx.getD (req.tableIdx.getD 0)

/-- The forward of an extend: a fresh sequence starts from the empty state, and the state at the
tracked boundary is copied out on the way. `req` is the request before `noteTrack`. -/
def extendState (pool : LinearStatePool) (req : Req) (fed : List Token) : LinearStatePool :=
  let start := if req.cachedLen = 0 then [] else pool.states (gdnSlot req)
  let pool := pool.write (gdnSlot req) (start ++ fed)
  match trackBoundary req with
  | none => pool
  | some (dst, boundary) => pool.write dst (start ++ fed.take (boundary - req.cachedLen))

def decodeState (pool : LinearStatePool) (req : Req) (fed : List Token) : LinearStatePool :=
  pool.write (gdnSlot req) (pool.states (gdnSlot req) ++ fed)

end FreeToken
