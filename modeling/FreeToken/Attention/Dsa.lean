/-
**The selection of the sparse attention over latent rows.**

A list of rows comes with the count that bounds it. The scores are given, a score for each query and
group; a layer that shares the selection of another reads the list of that one.
-/

import FreeToken.Lib.Tensor
import FreeToken.Lib.Tiling
import FreeToken.Lib.TopK

namespace FreeToken

variable {σ : Type} [LinearOrder σ]

/-- `torch.topk(scores, k)[1]`. The order of equal scores is left open. -/
structure TorchTopk (σ : Type) [LinearOrder σ] where
  topk : List (WithBot σ) → Nat → List Nat
  isTopK : ∀ scores k, k ≤ scores.length → IsTopK scores k (topk scores k)

/-! ### `dsv4_indexer.py` -/

/-- Query `s` of the range may pick the groups that are complete at its position. -/
def indexerSelectPrefill (torch : TorchTopk σ) (scores : Nat → Nat → σ)
    (nBlocks startPos seqlen ratio topk offset : Nat) : List (List Int) :=
  (List.range seqlen).map fun s =>
    let live := (startPos + (s + 1)) / ratio
    let masked := (List.range nBlocks).map fun blk =>
      if live ≤ blk then ⊥ else (scores s blk : WithBot σ)
    (torch.topk masked (min topk nBlocks)).map fun pick : Nat =>
      if live ≤ pick then -1 else (pick : Int) + offset

/-- One row of a decode step; the columns behind the live ones score `-inf`. -/
def indexerSelectDecode (torch : TorchTopk σ) (scores : List (WithBot σ))
    (valid topk offset : Nat) : List Int :=
  (torch.topk scores (min topk scores.length)).map fun pick : Nat =>
    if valid ≤ pick then -1 else (pick : Int) + offset

/-- The scores that the decode kernel writes into a row of `width` columns. -/
def dsaDecodeScores (score : Nat → σ) (width valid : Nat) : List (WithBot σ) :=
  (List.range width).map fun t => if t < valid then (score t : WithBot σ) else ⊥

def dsaMapRows (picks rows : List Int) : Option (List Int) := gatherMasked rows picks

/-! ### `dsa.py` -/

abbrev RowSelection := List Int × Nat

structure DsaIndexer where
  indexTopk : Nat
  deriving DecidableEq, Repr

namespace DsaIndexer

variable (indexer : DsaIndexer) (torch : TorchTopk σ)

/-- One request of `_decode`. -/
def decode (rows : List Int) (kvlen : Nat) (score : Nat → σ) : Option RowSelection := do
  let s := dsaDecodeScores score rows.length kvlen
  let kSel := min indexer.indexTopk s.length
  let picks := indexerSelectDecode torch s kvlen kSel 0
  let sel ← dsaMapRows picks rows
  pure (sel, min kvlen kSel)

/-- `_select_prefill`, with the queries in chunks. -/
def selectPrefill (chunk : Nat) (score : Nat → Nat → σ) (rows : List Int) (positions : List Nat)
    (startPos : Nat) : Option (List RowSelection) := do
  let kSel := min indexer.indexTopk rows.length
  let sel ← (strides positions.length chunk).mapM fun span =>
    (indexerSelectPrefill torch (fun s => score (span.1 + s)) rows.length (startPos + span.1)
      (span.2 - span.1) 1 kSel 0).mapM fun picks => dsaMapRows picks rows
  pure (sel.flatten.zip (positions.map fun position => min (position + 1) kSel))

end DsaIndexer

/-! ### `dsa_indexer_kpool.py` -/

/-- The tokens of the open group, then those of the picked groups, as rows. -/
def expandAndTail (kp : Nat) (picks rows : List Int) (qPos : Nat) : Option RowSelection := do
  let histPos := picks.flatMap fun pick : Int => (List.range kp).map fun off : Nat =>
    if pick < 0 then (-1 : Int) else pick * kp + off
  let nPools := (qPos + 1) / kp
  let tailStart := nPools * kp
  let tailPos := (List.range (kp - 1)).map fun off : Nat =>
    if tailStart + off ≤ qPos then ((tailStart + off : Nat) : Int) else (-1 : Int)
  let sel ← gatherMasked rows (tailPos ++ histPos)
  pure (sel, (kp - 1) + min nPools picks.length * kp)

structure KpoolIndexer where
  kpool : Nat
  /-- `index_topk`, in tokens. -/
  indexTopk : Nat
  pooled : 1 < kpool
  whole : kpool ∣ indexTopk
  deriving DecidableEq, Repr

namespace KpoolIndexer

variable (indexer : KpoolIndexer) (torch : TorchTopk σ)

def selectK : Nat := indexer.indexTopk / indexer.kpool

/-- `rows[kpool - 1 :: kpool]`: a row for each group. -/
def poolCount (rows : List Int) : Nat := (rows.length - (indexer.kpool - 1) + indexer.kpool - 1) /
  indexer.kpool

/-- One request of `_decode`. -/
def decode (rows : List Int) (kvlen : Nat) (score : Nat → σ) : Option RowSelection :=
  let nPools := kvlen / indexer.kpool
  let s := dsaDecodeScores score (indexer.poolCount rows) nPools
  let kSel := min indexer.selectK s.length
  let picks := indexerSelectDecode torch s nPools kSel 0
  expandAndTail indexer.kpool picks rows (kvlen - 1)

/-- `_select_prefill`, with the queries in chunks. A request without a complete group gets its open
group alone. -/
def selectPrefill (chunk : Nat) (score : Nat → Nat → σ) (rows : List Int) (positions : List Nat)
    (startPos : Nat) : Option (List RowSelection) :=
  let nPoolsTotal := rows.length / indexer.kpool
  let kSel := min indexer.selectK (max nPoolsTotal 1)
  if nPoolsTotal = 0 then
    positions.mapM fun position =>
      expandAndTail indexer.kpool (List.replicate kSel (-1)) rows position
  else do
    let sel ← (strides positions.length chunk).mapM fun span =>
      ((indexerSelectPrefill torch (fun s => score (span.1 + s)) (indexer.poolCount rows)
          (startPos + span.1) (span.2 - span.1) indexer.kpool kSel 0).zip
        ((positions.take span.2).drop span.1)).mapM fun query =>
          expandAndTail indexer.kpool query.1 rows query.2
    pure sel.flatten

end KpoolIndexer

/-! ### A prefill batch -/

/-- A request of a prefill batch, with its page-table row and the scores of its queries. -/
structure SparseReq (σ : Type) where
  row : List Int
  cachedLen : Nat
  extendLen : Nat
  score : Nat → Nat → σ

namespace SparseReq

variable (req : SparseReq σ)

def deviceLen : Nat := req.cachedLen + req.extendLen

/-- Its part of `batch.positions`. -/
def positions : List Nat := List.range' req.cachedLen req.extendLen

/-- `page_table[table_idx, : device_len]`. -/
def rows : List Int := req.row.take req.deviceLen

end SparseReq

/-- The lists that `_prefill` hands to the kernel, request by request. While all requests fit
`index_topk`, each query walks the rows of its request, as far as its position. -/
def prefillSelection (select : SparseReq σ → Option (List RowSelection)) (indexTopk : Nat)
    (reqs : List (SparseReq σ)) : Option (List (List RowSelection)) :=
  if indexTopk < (reqs.map SparseReq.deviceLen).foldl max 0 then reqs.mapM select
  else some (reqs.map fun req => req.positions.map fun position => (req.rows, position + 1))

end FreeToken
