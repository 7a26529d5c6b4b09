/-
**The candidates of the DeepSeek-V4 attention.**

What a layer computes and the carry of its compressor are left out; an indexer counts by the blocks
that it picks.
-/

import FreeToken.Attention.Dsv4Sparse
import FreeToken.Lib.Ragged

namespace FreeToken

open List

structure PickTable where
  width : Nat
  rows : List (List Int)
  deriving DecidableEq, Repr

namespace PickTable

/-- `F.pad` with `-1`. -/
def pad (table : PickTable) (width : Nat) : PickTable :=
  if table.width < width then
    ⟨width, table.rows.map (· ++ List.replicate (width - table.width) (-1))⟩
  else table

def catColumns (left right : PickTable) : Option PickTable :=
  if left.rows.length = right.rows.length then
    some ⟨left.width + right.width, List.zipWith (· ++ ·) left.rows right.rows⟩
  else none

def catRows : List PickTable → Option PickTable
  | [] => none
  | first :: tables =>
      if tables.all fun table => table.width = first.width then
        some ⟨first.width, (first :: tables).flatMap rows⟩
      else none

end PickTable

/-- The window of query `base` of a cold prompt: a causal row of columns. -/
def coldWinCols (windowSize width base : Nat) : List Int :=
  (List.range width).map fun c : Nat =>
    let col : Int := max ((base : Int) - windowSize + 1) 0 + c
    if (base : Int) < col then -1 else col

/-- The window of query `i` of an extension, in columns behind `wLo`. -/
def extendWinCols (windowSize startPos wLo i : Nat) : List Int :=
  (List.range windowSize).map fun c : Nat =>
    let absP : Int := startPos + i
    let cand : Int := max (absP - windowSize + 1) wLo + c
    if absP < cand then -1 else cand - wLo

def getWindowTopkIdxs (windowSize seqlen startPos : Nat) : PickTable :=
  if windowSize ≤ startPos + 1 then
    let start := startPos % windowSize
    ⟨windowSize, [(List.range' (start + 1) (windowSize - (start + 1)) ++
      List.range (start + 1)).map fun col : Nat => (col : Int)]⟩
  else if 0 < startPos then
    ⟨windowSize, [(List.range windowSize).map fun col : Nat =>
      if col < startPos + 1 then (col : Int) else -1]⟩
  else
    let width := min seqlen windowSize
    ⟨width, (List.range seqlen).map (coldWinCols windowSize width)⟩

/-- `get_compress_topk_idxs` with offset 0. -/
def getCompressTopkIdxs (ratio seqlen startPos : Nat) : PickTable :=
  if 0 < startPos then
    ⟨(startPos + 1) / ratio, [(List.range ((startPos + 1) / ratio)).map fun b : Nat => (b : Int)]⟩
  else
    ⟨seqlen / ratio, (List.range seqlen).map fun base : Nat =>
      (List.range (seqlen / ratio)).map fun b : Nat =>
        if (base + 1) / ratio ≤ b then -1 else (b : Int)⟩

/-- One request of a prefill batch, at its place in the flat token stream. -/
structure Dsv4Segment where
  offset : Nat
  n : Nat
  tableIdx : Nat
  startPos : Nat
  deriving DecidableEq, Repr

/-- A request, as `prepare_metadata` reads it. -/
structure Dsv4Req where
  extendLen : Nat
  tableIdx : Nat
  cachedLen : Nat
  deriving DecidableEq, Repr

def prefillSegments (offset : Nat) : List Dsv4Req → List Dsv4Segment
  | [] => []
  | req :: reqs => ⟨offset, req.extendLen, req.tableIdx, req.cachedLen⟩ ::
      prefillSegments (offset + req.extendLen) reqs

/-- An indexer, by the blocks that it picks: `-1` or a block that is complete. -/
structure Dsv4Indexer (ratio : Nat) where
  /-- `forward` and `extend`. -/
  prefill : (tableIdx startPos n : Nat) → PickTable
  prefillRows : ∀ tableIdx startPos n, (prefill tableIdx startPos n).rows.length = n
  prefillBlocks : ∀ tableIdx startPos n, ∀ row ∈ (prefill tableIdx startPos n).rows,
    row.length = (prefill tableIdx startPos n).width ∧
      ∀ block ∈ row, -1 ≤ block ∧ block < ((startPos + n) / ratio : Nat)
  /-- `decode_step`. -/
  decode : (row pos blocks : Nat) → List Int
  decodeBlocks : ∀ row pos blocks, ∀ block ∈ decode row pos blocks,
    -1 ≤ block ∧ block < ((pos + 1) / ratio : Nat)

structure Dsv4Layer where
  windowSize : Nat
  /-- 0 for a layer without compression. -/
  compressRatio : Nat
  indexer : Option (Dsv4Indexer compressRatio)

namespace Dsv4Layer

variable (layer : Dsv4Layer) (pool : Dsv4PagedPool)

def compressTopkExtend (seqlen startPos end_ : Nat) : PickTable :=
  ⟨end_ / layer.compressRatio, (List.range seqlen).map fun i : Nat =>
    (List.range (end_ / layer.compressRatio)).map fun b : Nat =>
      if b < (startPos + i + 1) / layer.compressRatio then (b : Int) else -1⟩

/-- The window half of `_prefill_segment`. -/
def prefillWindow (seg : Dsv4Segment) : Option PickTable := do
  let end_ := seg.startPos + seg.n
  let slots ← pool.windowSlotsOf seg.tableIdx seg.startPos end_
  if seg.startPos = 0 then
    let winCols := getWindowTopkIdxs layer.windowSize seg.n 0
    pure ⟨winCols.width, ← winCols.rows.mapM fun cols => winColsToGlobal cols slots⟩
  else
    let wLo := seg.startPos + 1 - layer.windowSize
    let wsPool ← pool.windowSlotsOf seg.tableIdx wLo end_
    let winCols := (List.range seg.n).map
      (extendWinCols layer.windowSize seg.startPos wLo)
    pure ⟨layer.windowSize, ← winCols.mapM fun cols => winColsToGlobal cols wsPool⟩

def prefillBlocks (seg : Dsv4Segment) : PickTable :=
  match layer.indexer with
  | some indexer => indexer.prefill seg.tableIdx seg.startPos seg.n
  | none =>
      if seg.startPos = 0 then getCompressTopkIdxs layer.compressRatio seg.n 0
      else layer.compressTopkExtend seg.n seg.startPos (seg.startPos + seg.n)

def prefillSegment (seg : Dsv4Segment) : Option (PickTable × Option PickTable) := do
  let winGlobal ← layer.prefillWindow pool seg
  if layer.compressRatio = 0 then pure (winGlobal, none)
  else
    let blocks := layer.prefillBlocks seg
    let row ← pool.fullLocMap[seg.tableIdx]?
    let cmpGlobal ← blocks.rows.mapM (blocksToGlobal row layer.compressRatio)
    pure (winGlobal, some ⟨blocks.width, cmpGlobal⟩)

/-- A part at the widths of the batch, `window | compressed`. -/
def padPart (nWindow maxC : Nat) (part : PickTable × Option PickTable) : Option PickTable := do
  let wg := part.1.pad nWindow
  if layer.compressRatio = 0 then pure wg
  else wg.catColumns ((← part.2).pad maxC)

/-- What `forward_ragged` hands to the kernel: the columns of all queries and the number of window
columns. -/
def forwardRagged (segs : List Dsv4Segment) : Option (PickTable × Nat) := do
  let parts ← segs.mapM (layer.prefillSegment pool)
  let maxC := (parts.map fun part => (part.2.map PickTable.width).getD 0).foldl max 0
  let first ← parts.head?
  let nWindow := if 1 < segs.length then layer.windowSize else first.1.width
  let flat ← parts.mapM (layer.padPart nWindow maxC)
  pure (← PickTable.catRows flat, nWindow)

/-- What `decode_step` hands to the kernel for a row: its columns, and the count that bounds the
compressed ones. -/
def decodeRow (snapshot : List (List Int)) (stageCap : Nat) (row pos : Nat) :
    Option (List Int × Option Nat) := do
  let snap ← snapshot[row]?
  let ctx ← pool.windowCtx layer.windowSize snap pos
  if layer.compressRatio = 0 then pure (ctx.windowSlotsTopk, none)
  else
    let stage := (stageCap + 1) / layer.compressRatio
    let valid := (pos + 1) / layer.compressRatio
    let blocks := match layer.indexer with
      | some indexer => indexer.decode row pos stage
      | none => (List.range stage).map fun b : Nat => if b < valid then (b : Int) else -1
    let compressIdxs ← blocksToGlobal snap layer.compressRatio blocks
    pure (ctx.windowSlotsTopk ++ compressIdxs, some (min valid compressIdxs.length))

/-- One token for each request, against the snapshot of its page-table row. -/
def decodeStep (snapshot : List (List Int)) (stageCap : Nat) (pos : List Nat) :
    Option (List (List Int × Option Nat)) :=
  (List.range pos.length).mapM fun row => do
    layer.decodeRow pool snapshot stageCap row (← pos[row]?)

end Dsv4Layer

/-! ### Forwards -/

/-- The captured snapshot buffer. It begins with `-1` in all places. -/
structure Dsv4Capture (fullToken : Nat) where
  width : Nat
  fullSnap : List (List Int)
  widths : ∀ row ∈ fullSnap, row.length = width
  places : ∀ row ∈ fullSnap, ∀ loc ∈ row, -1 ≤ loc ∧ loc < fullToken

/-- A decode batch reads its own copy of the rows, or the captured buffer. -/
inductive Dsv4Staging (fullToken : Nat) where
  | eager
  | replay (capture : Dsv4Capture fullToken)

namespace Dsv4Staging

variable {pool : Dsv4PagedPool}

def snapshot (staging : Dsv4Staging pool.fullToken) (tableRows : List Nat) :
    Option (List (List Int)) :=
  match staging with
  | eager => pool.fullSnapshot tableRows
  | replay capture => pool.pointToCapture capture.fullSnap tableRows

def stageCap (staging : Dsv4Staging pool.fullToken) (pos : List Nat) : Nat :=
  match staging with
  | eager => pos.foldl max 0
  | replay capture => capture.width - 1

def Covers (staging : Dsv4Staging pool.fullToken) (pos : List Nat) : Prop :=
  match staging with
  | eager => True
  | replay capture => pos.length ≤ capture.fullSnap.length ∧ ∀ p ∈ pos, p < capture.width

end Dsv4Staging

inductive Dsv4Forward where
  | prefill (pool : Dsv4PagedPool) (reqs : List Dsv4Req)
  | decode (pool : Dsv4PagedPool) (staging : Dsv4Staging pool.fullToken) (tableRows pos : List Nat)

end FreeToken
