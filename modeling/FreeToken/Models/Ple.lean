/-
**The n-gram hash of the per-layer embedding.**

Tokens are the 32-bit ids of `input_ids`. A window copies and compares them only, so that `long()` is
left to the hash, which multiplies and adds in 64 bits. The scheduler has always staged the slots of
a decode batch; how `build_ple_metadata` does without them is left out.
-/

import FreeToken.KVCache.HybridRadixCache
import FreeToken.Lib.Copies
import FreeToken.Lib.Ragged
import FreeToken.Lib.Tensor

namespace FreeToken

abbrev TokenId := BitVec 32

/-- What the hash takes from `Qwen4ExpArgs` and from the checkpoint. -/
structure NgramArgs where
  ngramSize : Nat
  headsPerNgram : Nat
  /-- `ngram_boundary_token_id`. -/
  boundary : TokenId
  multipliers : List (BitVec 64)
  headsVocabSizes : List (BitVec 64)
  headsOffsets : List (BitVec 64)
  /-- There is a head to divide `ple_embed_dim` by. -/
  atLeastTwo : 2 ≤ ngramSize
  deriving DecidableEq, Repr

/-- A request of a forward: the tokens that it is extended by, and the slot for a snapshot. -/
structure PleReq where
  slot : Nat
  cachedLen : Nat
  tokens : List TokenId
  /-- `mamba_ping_pong[mamba_next_track_idx]`. -/
  trackSlot : Option Nat := none
  deriving DecidableEq, Repr

structure PleBatch where
  reqs : List PleReq
  isDecode : Bool := false
  deriving DecidableEq, Repr

structure PleMetadata where
  inputIds : List TokenId
  cuSeqlens : List Nat
  seqLens : List Nat
  ngramContext : List (List TokenId)
  stateSlots : List Nat
  isDecode : Bool
  deriving DecidableEq, Repr

abbrev NgramPool := Nat → List TokenId

namespace NgramArgs

def ctxLen (args : NgramArgs) : Nat := args.ngramSize - 1

end NgramArgs

namespace PleBatch

/-- `input_ids`, one request behind the other. -/
def inputIds (batch : PleBatch) : List TokenId := batch.reqs.flatMap PleReq.tokens

def seqLens (batch : PleBatch) : List Nat := batch.reqs.map fun req => req.tokens.length

/-- `build_ple_metadata`: a request that starts a sequence has nothing but boundaries behind it. -/
def metadata (args : NgramArgs) (pool : NgramPool) (batch : PleBatch) : PleMetadata where
  inputIds := batch.inputIds
  cuSeqlens :=
    if batch.isDecode then List.range (batch.reqs.length + 1) else cumsum batch.seqLens
  seqLens := if batch.isDecode then batch.reqs.map fun _ => 1 else batch.seqLens
  ngramContext := batch.reqs.map fun req =>
    if ¬batch.isDecode ∧ req.cachedLen = 0 then List.replicate args.ctxLen args.boundary
    else pool req.slot
  stateSlots := batch.reqs.map PleReq.slot
  isDecode := batch.isDecode

/-- The slot and the row of the deepest boundary inside an extend, of the request whose first token
is at `off`. -/
def trackRow (req : PleReq) (off : Nat) : Option (Nat × Nat) :=
  match req.trackSlot with
  | none => none
  | some dst =>
      let chunks := (req.tokens.length - 1) / chunkSize
      if chunks < 1 then none else some (dst, off + chunks * chunkSize)

/-- `track_dst` and `track_boundary_row`. -/
def track (batch : PleBatch) : List (Nat × Nat) :=
  if batch.isDecode then []
  else (batch.reqs.zip (cumsum batch.seqLens)).filterMap fun (req, off) => trackRow req off

end PleBatch

/-! ### The row ids -/

namespace NgramEmbedding

variable (args : NgramArgs) (info : PleMetadata)

/-- A number of `cuSeqlens`. -/
def cu (i : Nat) : Nat := info.cuSeqlens.getD i 0

/-- The request that a token belongs to: `searchsorted(cu, pos, right=True) - 1`, clamped. -/
def reqOf (pos : Nat) : Nat := min (info.cuSeqlens.countP (· ≤ pos) - 1) (info.seqLens.length - 1)

def colOf (pos : Nat) : Nat := pos - cu info (reqOf info pos) + args.ctxLen

def unpacked : Nat × Nat → TokenId := fun (req, col) =>
  if col < args.ctxLen then (info.ngramContext.getD req []).getD col args.boundary
  else args.boundary

def tokenWrite (pos : Nat) : Copy (Nat × Nat) TokenId :=
  ⟨(reqOf info pos, colOf args info pos), .value (info.inputIds.getD pos args.boundary)⟩

/-- `packed[req, col] = ids`. -/
def packedTokens : Nat × Nat → TokenId :=
  runCopies (unpacked args info) ((List.range info.inputIds.length).map (tokenWrite args info))

/-- `_window`: the row of the hash window that a token is in. -/
def windowRow (pos : Nat) : Nat → TokenId :=
  if info.isDecode then fun col =>
    (info.ngramContext.getD pos [] ++ [info.inputIds.getD pos args.boundary]).getD col args.boundary
  else fun col => packedTokens args info (reqOf info pos, col)

/-- `_window`: the column of a token. -/
def windowCol (pos : Nat) : Nat := if info.isDecode then args.ctxLen else colOf args info pos

section Shift

variable (row : Nat → TokenId)

def eosPos (col : Nat) : Int := if row col = args.boundary then col else -1

/-- `cummax(eos_pos)`. -/
def eosMax : Nat → Int
  | 0 => eosPos args row 0
  | col + 1 => max (eosMax col) (eosPos args row (col + 1))

/-- `prev_eos`: the last boundary to the left. -/
def prevEos : Nat → Int
  | 0 => -1
  | col + 1 => eosMax args row col

def inSegment (col : Nat) : Int := col - prevEos args row col - 1

/-- `_shift_ignore_eos`: the token `shift` places to the left, or the boundary where one is crossed. -/
def shifted (shift col : Nat) : TokenId :=
  if shift = 0 then row col
  else if (0 : Int) ≤ (col : Int) - shift ∧ shift ≤ inSegment args row col then row (col - shift)
  else args.boundary

end Shift

def mixed (tokens : Nat → TokenId) (ngram : Nat) : BitVec 64 :=
  (List.range' 1 (ngram - 1)).foldl
    (fun mix position => mix ^^^
      (tokens position).signExtend 64 * args.multipliers.getD position 0)
    ((tokens 0).signExtend 64 * args.multipliers.getD 0 0)

/-- `torch.remainder`: the sign is that of the divisor. -/
def remainder (value size : BitVec 64) : BitVec 64 := BitVec.ofInt 64 (value.toInt.fmod size.toInt)

def headIds (tokens : Nat → TokenId) : List (BitVec 64) :=
  (List.range' 2 (args.ngramSize - 1)).flatMap fun ngram =>
    let start := (ngram - 2) * args.headsPerNgram
    (((args.headsVocabSizes.drop start).take args.headsPerNgram).zip
      ((args.headsOffsets.drop start).take args.headsPerNgram)).map fun (size, offset) =>
        remainder (mixed args tokens ngram) size + offset

def rowAt (pos : Nat) : List (BitVec 64) :=
  headIds args fun shift => shifted args (windowRow args info pos) shift (windowCol args info pos)

/-- The row of the table for every token and every head. -/
def rowIds : List (List (BitVec 64)) := (List.range info.inputIds.length).map (rowAt args info)

end NgramEmbedding

/-! ### The contexts behind a forward -/

namespace PleMetadata

variable (args : NgramArgs) (info : PleMetadata)

/-- A token of the next context of a request: a token of this forward, or one of the old context. -/
def nextToken (req col : Nat) : TokenId :=
  let start := info.cuSeqlens.getD req 0
  let stop := info.cuSeqlens.getD (req + 1) 0
  let cand : Int := stop - args.ctxLen + col
  if (start : Int) ≤ cand then info.inputIds.getD cand.toNat args.boundary
  else (info.ngramContext.getD req []).getD (min (stop - start + col) (args.ctxLen - 1)) args.boundary

/-- `nxt`. -/
def nextContext (req : Nat) : List TokenId :=
  if info.isDecode then
    (info.ngramContext.getD req []).drop 1 ++ [info.inputIds.getD req args.boundary]
  else (List.range args.ctxLen).map (nextToken args info req)

def boundaryWindow (row : Nat) : Option (List TokenId) :=
  (List.range args.ctxLen).mapM fun (step : Nat) =>
    tensorIndex info.inputIds ((row : Int) - args.ctxLen + step)

def rolls : List (Copy Nat (List TokenId)) :=
  info.stateSlots.zipIdx.map fun (slot, req) => ⟨slot, .value (nextContext args info req)⟩

/-- `context_pool.index_copy_`. -/
def roll (pool : NgramPool) : NgramPool := runCopies pool (rolls args info)

/-- `commit_ngram_context`. -/
def commit (pool : NgramPool) (track : List (Nat × Nat)) : Option NgramPool := do
  let windows ← track.mapM fun (dst, row) => (boundaryWindow args info row).map (dst, ·)
  return runCopies (roll args info pool) <| windows.map fun (dst, window) => ⟨dst, .value window⟩

end PleMetadata

/-- One forward, and the slots behind it. -/
def NgramArgs.forward (args : NgramArgs) (pool : NgramPool) (batch : PleBatch) :
    Option (List (List (BitVec 64)) × NgramPool) := do
  let info := batch.metadata args pool
  let pool ← info.commit args pool batch.track
  return (NgramEmbedding.rowIds args info, pool)

end FreeToken
