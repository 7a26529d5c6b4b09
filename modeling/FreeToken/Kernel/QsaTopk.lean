/-
**The exact block top-k over the scores of the QSA indexer.**
-/

import FreeToken.Lib.IndexCopy
import FreeToken.Lib.Stores

namespace FreeToken.QsaTopk

def radix : Nat := 5
def bins : Nat := 1 <<< radix
def passes : Nat := 7
def maxBlockN : Nat := 4096
def maxResident : Nat := 8192
def minChunk : Nat := 4096

/-! ### The keys -/

def monotoneKey (bits : BitVec 32) : BitVec 32 :=
  if bits >>> 31 = 0#32 then bits ||| 0x80000000#32 else ~~~bits

/-- `value > -float("inf")`: neither a NaN nor that infinity. -/
def aboveNegInf (bits : BitVec 32) : Bool :=
  (bits &&& 0x7FFFFFFF#32) ≤ 0x7F800000#32 ∧ bits ≠ 0xFF800000#32

variable (row : List (BitVec 32))

/-- One column of `_load_keys`. -/
def loadKey (base limit col : Nat) : BitVec 32 :=
  if col < limit then
    let value := row.getD (base + col) 0xFF800000#32
    if aboveNegInf value then monotoneKey value else 0
  else 0

/-- The keys of some columns, a dead column having the key 0. -/
def loadKeys (base limit : Nat) (columns : List Nat) : List (BitVec 32) :=
  columns.map (loadKey row base limit)

/-! ### The radix select -/

/-- The keys that agree with `lower` on the bits of `keep`, and how many of them are still to be found. -/
structure KeyRange where
  lower : BitVec 32
  keep : BitVec 32
  kRem : Nat
  settled : Bool
  deriving DecidableEq

variable (keys : List (BitVec 32))

/-- `tl.histogram` of a digit of the keys in a range. -/
def histogram (shift : Nat) (range : KeyRange) : List Nat :=
  (List.range bins).map fun bin => keys.countP fun key =>
    key ≠ 0 ∧ key &&& range.keep = range.lower ∧
      ((key >>> shift) &&& BitVec.ofNat 32 (bins - 1)).toNat = bin

def narrow (hist : List Nat) (shift : Nat) (range : KeyRange) : KeyRange :=
  let above := fun bin => hist.sum - (hist.take (bin + 1)).sum
  let binId := ((List.range bins).map fun bin =>
    if above bin < range.kRem then bin else bins - 1).foldr min (bins - 1)
  let kRem := range.kRem -
    ((List.range bins).map fun bin => if bin = binId then above bin else 0).sum
  { lower := range.lower ||| BitVec.ofNat 32 binId <<< shift
    keep := range.keep ||| BitVec.ofNat 32 (bins - 1) <<< shift
    kRem := kRem
    settled := kRem =
      ((List.range bins).map fun bin => if bin = binId then hist.getD bin 0 else 0).sum }

def radixPrefix (hist : Nat → KeyRange → List Nat) (kEff : Nat) : BitVec 32 × Nat :=
  let range := (List.range passes).foldl (fun range step =>
    let shift := radix * (passes - 1 - step)
    if range.settled then range else narrow (hist shift range) shift range) ⟨0, 0, kEff, false⟩
  (range.lower, if range.settled then kEff else range.kRem)

def residentPrefix (kEff : Nat) : BitVec 32 × Nat := radixPrefix (histogram keys) kEff

def tiledPrefix (tile : Nat → List (BitVec 32)) (tiles kEff : Nat) : BitVec 32 × Nat :=
  radixPrefix (fun shift range => (List.range tiles).foldl (fun hist t =>
    List.zipWith (· + ·) hist (histogram (tile t) shift range)) (List.replicate bins 0)) kEff

/-! ### The ranks -/

def packed (lower key : BitVec 32) : BitVec 32 :=
  let greater : BitVec 32 := if lower < key ∧ key ≠ 0 then 1 else 0
  let equal : BitVec 32 := if key = lower ∧ key ≠ 0 then 1 else 0
  greater ||| equal <<< 16

/-- `tl.sum` of integers of 32 bits. -/
def sum32 (values : List (BitVec 32)) : BitVec 32 := values.foldl (· + ·) 0

/-- The rank of one column in `_tile_ranks`, and whether it is taken. -/
def tileRank (lower : BitVec 32) (ties aboveBase equalBase : Int)
    (i : Nat) : Int × Bool :=
  let key := keys.getD i 0
  let pre := sum32 ((keys.take (i + 1)).map (packed lower)) - packed lower key
  let rankEqual := equalBase + (pre.sshiftRight 16).toInt
  (aboveBase + (pre &&& 0xFFFF#32).toInt + min rankEqual ties,
    (lower < key ∧ key ≠ 0) ∨ (key = lower ∧ key ≠ 0) ∧ rankEqual < ties)

def tileTotals (lower : BitVec 32) (aboveBase equalBase : Int) : Int × Int :=
  let total := sum32 (keys.map (packed lower))
  (aboveBase + (total &&& 0xFFFF#32).toInt, equalBase + (total.sshiftRight 16).toInt)

/-- `_tile_ranks` with a masked store of a value at the rank of each column. -/
def rankStores {α : Type} (keys : List (BitVec 32)) (lower : BitVec 32)
    (ties aboveBase equalBase : Int) (topK : Nat) (slot : Int) (value : Nat → α) : List (Int × α) :=
  (List.range keys.length).filterMap fun i =>
    let rank := tileRank keys lower ties aboveBase equalBase i
    if rank.2 ∧ rank.1 < topK then some (slot + rank.1, value i) else none

def padStores {α : Type} (padK topK : Nat) (slot emitted : Int) (value : α) : List (Int × α) :=
  (List.range padK).filterMap fun pad : Nat =>
    if emitted ≤ pad ∧ pad < topK then some (slot + pad, value) else none

/-! ### The kernels -/

variable (visible : BitVec 32)

/-- `tl.maximum(tl.minimum(visible, num_columns), 0)` -/
def limitOf : Nat := (max (min visible.toInt row.length) 0).toNat

/-- The state of the loop over the tiles: the stores, and the counts behind them. -/
structure Emitting where
  stores : List (Int × Int)
  above : Int
  equal : Int

def compact (columns : Nat → Nat) (lower : BitVec 32) (ties : Int)
    (topK : Nat) (done : Emitting) : Emitting :=
  let totals := tileTotals keys lower done.above done.equal
  { stores := done.stores ++
      rankStores keys lower ties done.above done.equal topK 0 fun i => (columns i : Int)
    above := totals.1
    equal := totals.2 }

def qsaBlockTopkKernel (topK padK blockN : Nat) (singleTile : Bool) : List (Int × Int) :=
  let limit := limitOf row visible
  let kEff := min limit topK
  let tiles := (limit + blockN - 1) / blockN
  let tile := fun t => loadKeys row 0 limit ((List.range blockN).map (t * blockN + ·))
  if 0 < kEff then
    let threshold := if singleTile then residentPrefix (tile 0) kEff else tiledPrefix tile tiles kEff
    let done := (List.range (if singleTile then 1 else tiles)).foldl (fun done t =>
      compact (tile t) (t * blockN + ·) threshold.1 threshold.2 topK done) ⟨[], 0, 0⟩
    done.stores ++ padStores padK topK 0 (done.above + min done.equal threshold.2) (-1)
  else padStores padK topK 0 0 (-1)

/-- `_qsa_topk_split_kernel`: the stores into the rows of candidate keys and columns. -/
def qsaTopkSplitKernel (topK padK chunk split : Nat) : List (Int × BitVec 32) × List (Int × Int) :=
  let base := split * chunk
  let limit := min (limitOf row visible - base) chunk
  let kEff := min limit topK
  let slot : Int := split * topK
  if 0 < kEff then
    let keys := loadKeys row base limit (List.range chunk)
    let threshold := residentPrefix keys kEff
    let totals := tileTotals keys threshold.1 0 0
    (rankStores keys threshold.1 threshold.2 0 0 topK slot (keys.getD · 0) ++
        padStores padK topK slot (totals.1 + min totals.2 threshold.2) 0,
      rankStores keys threshold.1 threshold.2 0 0 topK slot fun i => (base + i : Int))
  else (padStores padK topK slot 0 0, [])

/-- `_merge_tile`: the stores, and how many winners there are. -/
def mergeTile (keyRow : List (BitVec 32)) (colRow : List Int) (candidates kEff topK block : Nat) :
    List (Int × Int) × Int :=
  let keys := (List.range block).map fun i => if i < candidates then keyRow.getD i 0 else 0
  let threshold := residentPrefix keys kEff
  let totals := tileTotals keys threshold.1 0 0
  (rankStores keys threshold.1 threshold.2 0 0 topK 0 fun i =>
      if i < candidates then colRow.getD i (-1) else -1,
    totals.1 + min totals.2 threshold.2)

def qsaTopkMergeKernel (keyRow : List (BitVec 32))
    (colRow : List Int) (topK padK chunk nSplits blockSmall blockMid blockFull : Nat) :
    List (Int × Int) :=
  let limit := limitOf row visible
  let kEff := min limit topK
  let candidates := min ((limit + chunk - 1) / chunk) nSplits * topK
  let written :=
    if 0 < kEff then
      if candidates ≤ topK then
        -- one live split: its own top-k is the row's
        let alive := fun slot => decide (slot < topK ∧ keyRow.getD slot 0 ≠ 0)
        ((List.range padK).filterMap fun slot : Nat =>
          if slot < topK then some ((slot : Int), if alive slot then colRow.getD slot (-1) else -1)
          else none,
          ((List.range padK).countP alive : Int))
      else if candidates ≤ blockSmall then mergeTile keyRow colRow candidates kEff topK blockSmall
      else if candidates ≤ blockMid then mergeTile keyRow colRow candidates kEff topK blockMid
      else mergeTile keyRow colRow candidates kEff topK blockFull
    else ([], 0)
  written.1 ++ padStores padK topK 0 written.2 (-1)

/-! ### The choice between them -/

def splitPlan (columns topK : Nat) : Option (Nat × Nat) :=
  if topK = 0 ∨ columns ≤ minChunk then none
  else
    let maxSplits := maxResident / nextPowerOf2 topK
    if maxSplits < 2 then none
    else
      let chunk := max minChunk (nextPowerOf2 ((columns + maxSplits - 1) / maxSplits))
      if maxResident < chunk then none
      else
        let nSplits := (columns + chunk - 1) / chunk
        if nSplits < 2 ∨ columns ≤ nSplits * topK then none else some (chunk, nSplits)

/-- What the programs of the first phase leave of a row of scratch, in any order. -/
structure Scratch (row : List (BitVec 32)) (visible : BitVec 32) (topK padK chunk nSplits : Nat)
    (keyRow : List (BitVec 32)) (colRow : List Int) : Prop where
  keys : ∃ pre, pre.length = nSplits * topK ∧ Leaves ((List.range nSplits).flatMap fun split =>
      (qsaTopkSplitKernel row visible topK padK chunk split).1) pre keyRow
  cols : ∃ pre, pre.length = nSplits * topK ∧ Leaves ((List.range nSplits).flatMap fun split =>
      (qsaTopkSplitKernel row visible topK padK chunk split).2) pre colRow

/-- `qsa_block_topk` for one row: the stores into the output, whatever the scratch held. -/
inductive QsaBlockTopk (row : List (BitVec 32)) (visible : BitVec 32) :
    Nat → List (Int × Int) → Prop
  | empty : QsaBlockTopk row visible 0 []
  | whole {topK blockN : Nat} : topK ≠ 0 → splitPlan row.length topK = none →
      blockN = min maxBlockN (nextPowerOf2 (max row.length 1)) →
      QsaBlockTopk row visible topK
        (qsaBlockTopkKernel row visible topK (nextPowerOf2 topK) blockN (row.length ≤ blockN))
  | split {topK chunk nSplits mergeBlock : Nat} {keyRow : List (BitVec 32)} {colRow : List Int} :
      topK ≠ 0 → splitPlan row.length topK = some (chunk, nSplits) →
      Scratch row visible topK (nextPowerOf2 topK) chunk nSplits keyRow colRow →
      mergeBlock = nextPowerOf2 (nSplits * topK) →
      QsaBlockTopk row visible topK
        (qsaTopkMergeKernel row visible keyRow colRow topK (nextPowerOf2 topK) chunk nSplits
          (min 1024 mergeBlock) (min 4096 mergeBlock) mergeBlock)

end FreeToken.QsaTopk
