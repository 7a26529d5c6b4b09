/-
**The selection of the blocks-with-tail indexer.**

A row of the scratch for the scores keeps what an earlier forward has left behind the visible blocks.
-/

import FreeToken.Attention.Dsa

namespace FreeToken

variable {σ : Type} [LinearOrder σ]

/-- `visible_blocks` of a query. -/
def qsaVisible (ratio position seqLen : Nat) : Nat := min ((position + 1) / ratio) (seqLen / ratio)

/-- The scores written for the visible blocks. -/
def qsaLogits (score : Nat → σ) (stale : Nat → WithBot σ) (cols visible : Nat) : List (WithBot σ) :=
  (List.range cols).map fun col =>
    if col < visible then (score col : WithBot σ) else stale col

/-- A block top-k of one row: `run logits visible k`. -/
structure BlockTopk (σ : Type) [LinearOrder σ] where
  run : List (WithBot σ) → Nat → Nat → List Int
  packs : ∀ logits visible k (score : Nat → σ), visible ≤ logits.length →
    (∀ i < visible, scoreAt logits i = score i) →
    (∀ i < visible, ∀ j < visible, score i = score j → i = j) →
    PacksBest score visible k (run logits visible k)

/-- `_top_blocks` through `torch.topk`: a stale column must not win a slot. -/
def torchTopBlocks (torch : TorchTopk σ) (logits : List (WithBot σ)) (visible k : Nat) : List Int :=
  let masked := (List.range logits.length).map fun col =>
    if visible ≤ col then ⊥ else scoreAt logits col
  let width := min k logits.length
  (torch.topk masked width).map (fun pick : Nat =>
      if ⊥ < scoreAt masked pick then (pick : Int) else (-1 : Int)) ++
    List.replicate (k - width) (-1)

/-- A row of `_expand_qsa_indices_kernel`. -/
def expandQsaIndices (blockTopk ratio outputWidth position seqLen : Nat) (blocks : List Int) :
    List Int :=
  let completeBlocks := min (min ((position + 1) / ratio) (seqLen / ratio)) blockTopk
  let expandedCount := completeBlocks * ratio
  let tailStart := (position + 1) / ratio * ratio
  let tailCount := position + 1 - tailStart
  (List.range outputWidth).map fun col =>
    let isExpanded := col < expandedCount
    let block := blocks.getD (min (col / ratio) (blockTopk - 1)) (-1)
    let expanded := block * ratio + (col % ratio : Nat)
    let tailOffset := col - expandedCount
    let isTail := expandedCount ≤ col ∧ tailOffset < tailCount ∧ tailOffset < ratio - 1
    let token := if isExpanded then expanded else ((tailStart + tailOffset : Nat) : Int)
    if (isExpanded ∨ isTail) ∧ 0 ≤ token ∧ token < seqLen then token else -1

structure QsaIndexer where
  ratio : Nat
  /-- `index_budget`, in tokens. -/
  tokenTopk : Nat
  cmpPageSize : Nat
  grouped : 1 < ratio
  whole : ratio ∣ tokenTopk
  paged : 0 < cmpPageSize

/-- A query of a forward: its position, the length of its request and the scores of the blocks. -/
structure QsaQuery (σ : Type) where
  position : Nat
  seqLen : Nat
  score : Nat → σ

namespace QsaIndexer

variable (indexer : QsaIndexer) (blockTopk : BlockTopk σ)

def blockCount : Nat := indexer.tokenTopk / indexer.ratio

def selectWidth : Nat := indexer.tokenTopk + indexer.ratio - 1

def pageSize : Nat := indexer.cmpPageSize * indexer.ratio

/-- The columns of the scores: those of `page_table[:, ::page_size]`, times `cmp_page_size`. -/
def columns (width : Nat) : Nat :=
  (width + indexer.pageSize - 1) / indexer.pageSize * indexer.cmpPageSize

def selectRow (stale : Nat → WithBot σ) (width : Nat) (query : QsaQuery σ) : List Int :=
  let visible := qsaVisible indexer.ratio query.position query.seqLen
  let logits := qsaLogits query.score stale (indexer.columns width) visible
  expandQsaIndices indexer.blockCount indexer.ratio indexer.selectWidth query.position query.seqLen
    (blockTopk.run logits visible indexer.blockCount)

/-- `_select`, with the queries in chunks that reuse the rows of the scratch. -/
def select (rowsPerChunk : Nat) (stale : Nat → Nat → WithBot σ) (width : Nat)
    (queries : List (QsaQuery σ)) : List (List Int) :=
  (strides queries.length rowsPerChunk).flatMap fun span =>
    ((queries.take span.2).drop span.1).mapIdx fun i query =>
      indexer.selectRow blockTopk (stale (span.1 + i)) width query

end QsaIndexer

end FreeToken
