/-
**The kernels of the sparse attention.**

* for each of them the single pass and the splits with their merge.

A value is `none` where the kernel computes no number.
-/

import FreeToken.Lib.OnlineSoftmax
import FreeToken.Lib.Tiling

namespace FreeToken

variable {R : Type} [Field R] [LinearOrder R] [IsStrictOrderedRing R] (E : ExpLog R)

/-- The columns of a list of indices, each with its score and its row. -/
structure Gathered (R : Type) where
  valid : Nat → Bool
  score : Nat → R
  row : Nat → Nat → R

/-! ### Loops and splits -/

variable (g : Gathered R)

/-- A tile of columns. A tile without valid columns leaves the maximum at `-inf`. -/
def sparseTile (blockT bound start : Nat) (st : SoftmaxState R) : SoftmaxState R :=
  let valid := fun c => start + c < bound ∧ g.valid (start + c)
  let scores := fun c => if valid c then (g.score (start + c) : WithBot R) else ⊥
  let rows := fun c => if valid c then g.row (start + c) else fun _ => 0
  st.absorbGuarded E (max st.m ((Finset.range blockT).sup scores)) blockT scores rows

/-- The columns from `first` to `last`. -/
def sparseLoop (blockT first last : Nat) : SoftmaxState R :=
  (List.range (cdiv (last - first) blockT)).foldl
    (fun st tile => sparseTile E g blockT last (first + tile * blockT) st) (SoftmaxState.start none)

def sparseSplit (nActive numSplits blockT splitId : Nat) : Nat × Nat :=
  let perSplit := cdiv (cdiv nActive numSplits) blockT * blockT
  (perSplit * splitId, min (perSplit * splitId + perSplit) nActive)

/-- `where(l == 0, -inf, m + log(l))` -/
def splitLse (l : R) : WithBot R → WithBot R
  | ⊥ => ⊥
  | (m : R) => if l = 0 then ⊥ else ((m + E.log l : R) : WithBot R)

def splitPartial (nActive numSplits blockT splitId : Nat) : (Nat → R) × WithBot R :=
  let bounds := sparseSplit nActive numSplits blockT splitId
  let st := if bounds.1 < bounds.2 then sparseLoop E g blockT bounds.1 bounds.2
    else SoftmaxState.start none
  (st.out, splitLse E st.l st.m)

/-! ### `dsv4/sparse_attn.py` -/

/-- Two pools and a sink. -/
structure Dsv4Attend (R : Type) where
  q : Nat → Nat → Nat → Nat → R
  windowPool : Nat → Nat → R
  cmpPool : Nat → Nat → R
  attnSink : Nat → R
  topkIdxs : Nat → Nat → Nat → Int
  nWindow : Nat
  topk : Nat
  dim : Nat
  scale : R
  cmpCounts : Option (Nat → Nat → Nat)

variable (isHip : Bool)

namespace Dsv4Attend

variable (call : Dsv4Attend R)

def nActive (b m : Nat) : Nat :=
  match call.cmpCounts with
  | none => call.topk
  | some counts => call.nWindow + counts b m

def kv (col slot : Nat) : Nat → R :=
  if isHip then fun i =>
    let winKv := if col < call.nWindow then call.windowPool slot i else 0
    let cmpKv := if ¬ col < call.nWindow then call.cmpPool slot i else 0
    if col < call.nWindow then winKv else cmpKv
  else (if col < call.nWindow then call.windowPool else call.cmpPool) slot

def gathered (b m h : Nat) : Gathered R where
  valid col := 0 ≤ call.topkIdxs b m col
  score col := (∑ i ∈ Finset.range call.dim,
    call.q b m h i * call.kv isHip col (call.topkIdxs b m col).toNat i) * call.scale
  row col := call.kv isHip col (call.topkIdxs b m col).toNat

/-- `acc / (l + exp(sink - m))`: without a valid column the sink weighs infinitely. -/
def sinkOut (sink : R) (st : SoftmaxState R) (d : Nat) : R :=
  match st.m with
  | ⊥ => 0
  | (m : R) => st.acc d / (st.l + E.exp (sink - m))

/-- `_sparse_attn_paged_kernel` -/
def sparseAttnPaged (blockT b m h : Nat) : Nat → R :=
  sinkOut E (call.attnSink h) (sparseLoop E (call.gathered isHip b m h) blockT 0 (call.nActive b m))

/-- `_sparse_attn_splitk_merge_kernel`, over what `_sparse_attn_paged_splitk_kernel` stores. -/
def sparseAttnSplitk (blockT numSplits b m h : Nat) : Option (Nat → R) := do
  let st ← (List.range numSplits).foldlM (fun st splitId =>
    let part := splitPartial E (call.gathered isHip b m h) (call.nActive b m) numSplits blockT
      splitId
    st.absorb E (max st.m part.2) 1 (fun _ => part.2) fun _ => part.1)
    (SoftmaxState.start (some (call.attnSink h)))
  pure fun d => st.acc d / st.l

end Dsv4Attend

/-! ### `glm_dsa_sparse.py` -/

/-- One pool, whose rows end with the rotary part. -/
structure GlmAttend (R : Type) where
  q : Nat → Nat → Nat → Nat → R
  pool : Nat → Nat → R
  topkIdxs : Nat → Nat → Nat → Int
  topk : Nat
  dimV : Nat
  dimR : Nat
  scale : R
  counts : Option (Nat → Nat → Nat)

variable (st : SoftmaxState R)

namespace GlmAttend

variable (call : GlmAttend R)

def nActive (b m : Nat) : Nat :=
  match call.counts with
  | none => call.topk
  | some counts => counts b m

def gathered (b m h : Nat) : Gathered R where
  valid col := 0 ≤ call.topkIdxs b m col
  score col :=
    let row := call.pool (call.topkIdxs b m col).toNat
    (∑ i ∈ Finset.range call.dimV, call.q b m h i * row i +
      ∑ i ∈ Finset.range call.dimR, call.q b m h (call.dimV + i) * row (call.dimV + i)) * call.scale
  row col := call.pool (call.topkIdxs b m col).toNat

/-- `acc / l` -/
def quotient : Option (Nat → R) :=
  if st.l = 0 then none else some fun d => st.acc d / st.l

/-- `_glm_dsa_sparse_kernel` -/
def glmDsaSparse (blockT b m h : Nat) : Option (Nat → R) :=
  quotient (sparseLoop E (call.gathered b m h) blockT 0 (call.nActive b m))

/-- `_glm_dsa_merge_kernel`, over what `_glm_dsa_splitk_kernel` stores. -/
def glmDsaSplitk (blockT numSplits b m h : Nat) : Option (Nat → R) :=
  quotient ((List.range numSplits).foldl (fun st splitId =>
    let part := splitPartial E (call.gathered b m h) (call.nActive b m) numSplits blockT splitId
    st.absorbGuarded E (max st.m part.2) 1 (fun _ => part.2) fun _ => part.1)
    (SoftmaxState.start none))

end GlmAttend

/-! ### `qsa/attend.py` -/

/-- Pages of a request, with a base-two exponential. -/
structure QsaAttend (R : Type) where
  q : Nat → Nat → Nat → R
  kCache : Nat → Nat → Nat → Nat → R
  vCache : Nat → Nat → Nat → Nat → R
  indices : Nat → Nat → Int
  blockTable : Nat → Nat → Int
  tokenToReq : Nat → Int
  topk : Nat
  pageSize : Nat
  pageTableWidth : Nat
  numCacheBlocks : Nat
  numRequests : Nat
  groupSize : Nat
  headDim : Nat
  /-- `HEAD_DIM ** -0.5 * 1.4426950408889634` -/
  scaleLog2 : R

namespace QsaAttend

variable (call : QsaAttend R)

def safeRequest (row : Nat) : Nat :=
  (min (max (call.tokenToReq row) 0) ((call.numRequests : Int) - 1)).toNat

/-- The page of a column, `-1` where the column names no token of the request. -/
def physicalPage (row col : Nat) : Int :=
  let request := call.tokenToReq row
  let logicalToken := call.indices row col
  let logicalPage := (max logicalToken 0).toNat / call.pageSize
  if (0 ≤ request ∧ request < call.numRequests) ∧ 0 ≤ logicalToken ∧
      logicalPage < call.pageTableWidth
  then call.blockTable (call.safeRequest row) (min logicalPage (call.pageTableWidth - 1)) else -1

def cacheRow (cache : Nat → Nat → Nat → Nat → R) (kvHead row col : Nat) : Nat → R :=
  cache (max (call.physicalPage row col) 0).toNat
    ((max (call.indices row col) 0).toNat % call.pageSize) kvHead

def gathered (row kvHead off : Nat) : Gathered R where
  valid col := col < call.topk ∧ 0 ≤ call.physicalPage row col ∧
    call.physicalPage row col < call.numCacheBlocks
  score col := (∑ i ∈ Finset.range call.headDim, call.q row (kvHead * call.groupSize + off) i *
      call.cacheRow call.kCache kvHead row col i) * call.scaleLog2
  row col := call.cacheRow call.vCache kvHead row col

def sentinel : R := -10 ^ 20

/-- A tile: a masked column scores `-1e20`, and weighs nothing. -/
def tileStep (blockN tile : Nat) (st : SoftmaxState R) : SoftmaxState R :=
  let valid := fun c => g.valid (tile * blockN + c)
  let scores := fun c => if valid c then g.score (tile * blockN + c) else sentinel
  let probabilities := fun c => if valid c then (g.score (tile * blockN + c) : WithBot R) else ⊥
  let rows := fun c => if valid c then g.row (tile * blockN + c) else fun _ => 0
  let nextMax := max st.m ((Finset.range blockN).sup fun c => (scores c : WithBot R))
  st.absorbGuarded E nextMax blockN probabilities rows

def splitTiles (numTiles numSplits splitId : Nat) : Nat × Nat :=
  (splitId * numTiles / numSplits, (splitId + 1) * numTiles / numSplits)

/-- `_qsa_sparse_paged_gqa_splitk_kernel`, as far as the end of its loop. -/
def splitLoop (blockN numSplits row kvHead off splitId : Nat) : SoftmaxState R :=
  let bounds := splitTiles (cdiv call.topk blockN) numSplits splitId
  (List.range (bounds.2 - bounds.1)).foldl
    (fun st tile => tileStep E (call.gathered row kvHead off) blockN (bounds.1 + tile) st)
    { m := (sentinel : R), l := 0, acc := fun _ => 0 }

/-- `normalized_output` -/
def normalized (d : Nat) : R :=
  if 0 < st.l then st.acc d / max st.l (1 / 10 ^ 20) else 0

def partialLse : WithBot R :=
  if 0 < st.l then st.m + (E.log (max st.l (1 / 10 ^ 20)) : R) else ⊥

def sparsePaged (blockN row kvHead off : Nat) : Nat → R :=
  normalized (call.splitLoop E blockN 1 row kvHead off 0)

/-- `_qsa_merge_splitk_kernel` -/
def mergeSplitk (numSplits blockSplits : Nat) (part : Nat → (Nat → R) × WithBot R) (d : Nat) : R :=
  let lse := fun s => if s < numSplits then (part s).2 else ⊥
  let lseMax := (Finset.range blockSplits).sup lse
  let weights := fun s => if s < numSplits then E.shifted 0 lseMax (lse s) else 0
  let denominator := ∑ s ∈ Finset.range blockSplits, weights s
  let merged := ∑ s ∈ Finset.range blockSplits, (if s < numSplits then (part s).1 d else 0) * weights s
  if 0 < denominator then merged / denominator else 0

def sparsePagedSplitk (blockN numSplits blockSplits row kvHead off : Nat) : Nat → R :=
  mergeSplitk E numSplits blockSplits fun splitId =>
    let st := call.splitLoop E blockN numSplits row kvHead off splitId
    (normalized st, partialLse E st)

end QsaAttend

/-! ### What a query is to read -/

def columnWeight (col : Nat) : R :=
  if g.valid col then E.exp (g.score col) else 0

/-- **The softmax-weighted sum over the valid columns below a bound**, with a weight that has no
row. -/
def sparseSoftmax (bound : Nat) (sinkWeight : R) (d : Nat) : R :=
  (∑ col ∈ Finset.range bound, columnWeight E g col * g.row col d) /
    (sinkWeight + ∑ col ∈ Finset.range bound, columnWeight E g col)

end FreeToken
