/-
**The attention kernels over a paged cache.**

A program is a function of its ids; a value is `none` where the kernel computes no number.
-/

import FreeToken.Lib.OnlineSoftmax
import FreeToken.Lib.Stores

namespace FreeToken

/-- What the launches share. Rows of `kvIndices` are the slots of a request, by position. -/
structure AttnInputs (R : Type) where
  q : Nat → Nat → Nat → R
  kCache : Nat → Nat → Nat → R
  vCache : Nat → Nat → Nat → R
  kvIndptr : Nat → Nat
  kvIndices : Nat → Nat
  smScale : R
  slidingWindow : Option Nat
  sinks : Option (Nat → R)
  numQHeads : Nat
  numKvHeads : Nat
  headDim : Nat

namespace AttnInputs

variable {R : Type} (inp : AttnInputs R)

def group : Nat := inp.numQHeads / inp.numKvHeads

/-- `sliding_window or 0` -/
def window : Nat := inp.slidingWindow.getD 0

def blockD : Nat := nextPowerOf2 inp.headDim

def kvLen (req : Nat) : Nat := inp.kvIndptr (req + 1) - inp.kvIndptr req

def sink (head : Nat) : Option R := inp.sinks.map fun sinks => sinks head

end AttnInputs

variable {R : Type} [Field R] [LinearOrder R] [IsStrictOrderedRing R] (E : ExpLog R)

/-! ### Tiles -/

def loadRow (inside : Prop) [Decidable inside] (d : Nat) (row : Nat → R) (i : Nat) : R :=
  if inside ∧ i < d then row i else 0

def rowDot (blockD : Nat) (q k : Nat → R) : R := ∑ i ∈ Finset.range blockD, q i * k i

/-- A tile of columns. A row that is masked out throughout has no maximum, and a finite value
stands for it. -/
def onlineTile (skip : Prop) [Decidable skip] (blockN : Nat) (masked : Nat → Prop)
    [DecidablePred masked] (raw : Nat → R) (rows : Nat → Nat → R) (st : SoftmaxState R) :
    Option (SoftmaxState R) :=
  if skip then some st
  else
    let scores := fun c => if masked c then (raw c : WithBot R) else ⊥
    let rowMax := (Finset.range blockN).sup scores
    let rowMaxFixed := if rowMax = ⊥ then ((-1e20 : R) : WithBot R) else rowMax
    st.absorb E (max rowMaxFixed st.m) blockN scores rows

namespace AttnInputs

variable (inp : AttnInputs R)

/-! ### `_paged_attention_kernel` -/

/-- A tile of the query. -/
def pagedTile (blockN qTok qHead req qPos : Nat) (st : SoftmaxState R) (tile : Nat) :
    Option (SoftmaxState R) :=
  let kvHead := qHead / inp.group
  let kvStart := inp.kvIndptr req
  let kvLen := inp.kvLen req
  let q := loadRow True inp.headDim (inp.q qTok qHead)
  let start := tile * blockN
  let masked := fun c => start + c < kvLen ∧ start + c ≤ qPos ∧
    (0 < inp.window → qPos < start + c + inp.window)
  let slots := fun c => if start + c < kvLen then inp.kvIndices (kvStart + (start + c)) else 0
  let k := fun c => loadRow (start + c < kvLen) inp.headDim (inp.kCache (slots c) kvHead)
  let v := fun c => loadRow (start + c < kvLen) inp.headDim (inp.vCache (slots c) kvHead)
  onlineTile E (∀ c < blockN, ¬ masked c) blockN masked
    (fun c => rowDot inp.blockD q (k c) * inp.smScale) v st

/-- One query, one head. -/
def pagedAttention (qToReq qPositions : Nat → Nat) (blockN qTok qHead : Nat) :
    Option (Nat → R) := do
  let req := qToReq qTok
  let st ← (List.range (cdiv (inp.kvLen req) blockN)).foldlM
    (inp.pagedTile E blockN qTok qHead req (qPositions qTok)) (SoftmaxState.start (inp.sink qHead))
  pure st.out

/-! ### `decode_paged_attention` -/

def minBlockKv : Nat := 32

/-- `BLOCK_N` of the decode kernel. -/
def decodeBlockN : Nat := 32

def validBlockH : Nat := min 16 inp.group

def blockH (hip : Bool) : Nat :=
  let lanes := nextPowerOf2 inp.validBlockH
  if hip then max lanes 16 else lanes

def effectiveStart (qPos : Nat) : Nat := if 0 < inp.window then qPos + 1 - inp.window else 0

def effectiveLen (kvLen qPos : Nat) : Nat := min kvLen (qPos + 1) - inp.effectiveStart qPos

def splitBounds (kvLen qPos kvSplits splitId : Nat) : Nat × Nat :=
  let effectiveLen := inp.effectiveLen kvLen qPos
  let perSplit := cdiv (cdiv effectiveLen kvSplits) minBlockKv * minBlockKv
  (perSplit * splitId, min (perSplit * splitId + perSplit) effectiveLen)

abbrev AttnPartial (R : Type) := (Nat → R) × R

/-- What is stored at the end of a split: `acc / l` and `m + log(l)`. -/
def handOver (l : R) (acc : Nat → R) : WithBot R → Option (AttnPartial R)
  | ⊥ => none
  | (m : R) => if l = 0 then none else some (fun d => acc d / l, m + E.log l)

/-- A tile of a split: columns from `splitStart` to `splitEnd`, relative to the first key. -/
def decodeTile (batchId kvHead qHead qPos splitStart splitEnd : Nat) (st : SoftmaxState R)
    (tile : Nat) : Option (SoftmaxState R) :=
  let kvStart := inp.kvIndptr batchId
  let q := loadRow True inp.headDim (inp.q batchId qHead)
  let relStart := splitStart + tile * decodeBlockN
  let masked := fun c => relStart + c < splitEnd
  let slots := fun c => if masked c
    then inp.kvIndices (kvStart + (inp.effectiveStart qPos + (relStart + c))) else 0
  let k := fun c => loadRow (masked c) inp.headDim (inp.kCache (slots c) kvHead)
  let v := fun c => loadRow (masked c) inp.headDim (inp.vCache (slots c) kvHead)
  let scores := fun c =>
    if masked c then ((rowDot inp.blockD q (k c) * inp.smScale : R) : WithBot R) else ⊥
  st.absorb E (max ((Finset.range decodeBlockN).sup scores) st.m) decodeBlockN scores v

/-- A lane of `_decode_grouped_stage1_kernel`. -/
def decodeStage1 (qPositions numKvSplits : Nat → Nat) (batchId headBlockId splitId qHead : Nat) :
    Option (AttnPartial R) := do
  let kvHead := headBlockId / cdiv inp.group inp.validBlockH
  let qPos := qPositions batchId
  let bounds := inp.splitBounds (inp.kvLen batchId) qPos (numKvSplits batchId) splitId
  let st ← (List.range (cdiv (bounds.2 - bounds.1) decodeBlockN)).foldlM
    (inp.decodeTile E batchId kvHead qHead qPos bounds.1 bounds.2) (SoftmaxState.start none)
  handOver E st.l st.acc st.m

/-- The lanes that a program stores, unless its split is empty. -/
def stage1Writes (hip : Bool) (qPositions numKvSplits : Nat → Nat) (batchId splitId : Nat)
    (headBlockId qHead : Nat) : Option (Option (AttnPartial R)) :=
  let bounds := inp.splitBounds (inp.kvLen batchId) (qPositions batchId) (numKvSplits batchId)
    splitId
  let first := headBlockId * inp.validBlockH
  if bounds.1 < bounds.2 ∧ (first ≤ qHead ∧ qHead < first + inp.blockH hip) ∧
      qHead < (headBlockId + 1) * inp.validBlockH ∧ qHead < inp.numQHeads
  then some (inp.decodeStage1 E qPositions numKvSplits batchId headBlockId splitId qHead)
  else none

def mergeSplit (qPositions numKvSplits : Nat → Nat) (mid : Nat → Nat → Option (AttnPartial R))
    (batchId qHead : Nat) (st : SoftmaxState R) (splitId : Nat) : Option (SoftmaxState R) :=
  let bounds := inp.splitBounds (inp.kvLen batchId) (qPositions batchId) (numKvSplits batchId)
    splitId
  if bounds.1 < bounds.2 then do
    let part ← mid splitId qHead
    st.absorb E (max (part.2 : WithBot R) st.m) 1 (fun _ => part.2) fun _ => part.1
  else some st

/-- A program of `_decode_stage2_kernel`. -/
def decodeStage2 (qPositions numKvSplits : Nat → Nat) (maxKvSplits : Nat)
    (mid : Nat → Nat → Option (AttnPartial R)) (batchId qHead : Nat) : Option (Nat → R) := do
  let st ← (List.range maxKvSplits).foldlM
    (inp.mergeSplit E qPositions numKvSplits mid batchId qHead)
    (SoftmaxState.start (inp.sink qHead))
  pure st.out

/-- `mid` is what the scratch holds before. -/
def decodePagedAttention (hip : Bool) (qPositions numKvSplits : Nat → Nat) (maxKvSplits : Nat)
    (mid : Nat → Nat → Nat → Option (AttnPartial R)) (batchId qHead : Nat) : Option (Nat → R) :=
  inp.decodeStage2 E qPositions numKvSplits maxKvSplits (fun splitId =>
    storeAll (List.range (cdiv inp.numQHeads inp.validBlockH))
      (inp.stage1Writes E hip qPositions numKvSplits batchId splitId) (mid batchId splitId))
    batchId qHead

/-! ### `extend_paged_attention` -/

/-- The queries of a prefill, request after request, and the rows that are new. -/
structure ExtendInputs (R : Type) where
  qoIndptr : Nat → Nat
  prefixLens : Nat → Nat
  maxQLen : Nat
  numSeqs : Nat
  /-- `k_extend`, `v_extend` -/
  extend : Option ((Nat → Nat → Nat → R) × (Nat → Nat → Nat → R))

def ExtendInputs.qLen (ext : ExtendInputs R) (seqId : Nat) : Nat :=
  ext.qoIndptr (seqId + 1) - ext.qoIndptr seqId

variable (ext : ExtendInputs R)

/-- `offs_m` of a lane. -/
def offsM (blockM blockMId lane : Nat) : Nat := blockMId * blockM + lane

def extendQuery (blockM seqId qHead blockMId lane : Nat) : Nat → R :=
  loadRow (offsM blockM blockMId lane < ext.qLen seqId) inp.headDim
    (inp.q (ext.qoIndptr seqId + offsM blockM blockMId lane) qHead)

/-- A tile of `_extend_attention_kernel`. It is skipped when no row of the block needs it. -/
def extendTile (blockM blockN seqId qHead blockMId lane : Nat) (st : SoftmaxState R) (tile : Nat) :
    Option (SoftmaxState R) :=
  let kvHead := qHead / inp.group
  let qLen := ext.qLen seqId
  let kvStart := inp.kvIndptr seqId
  let kvLen := inp.kvLen seqId
  let prefixLen := ext.prefixLens seqId
  let offsM := offsM blockM blockMId
  let q := inp.extendQuery ext blockM seqId qHead blockMId lane
  let startN := tile * blockN
  let finalMask := fun lane c => offsM lane < qLen ∧ startN + c < kvLen ∧
    startN + c ≤ prefixLen + offsM lane ∧
    (0 < inp.window → prefixLen + offsM lane < startN + c + inp.window)
  let slots := fun c => if startN + c < kvLen then inp.kvIndices (kvStart + (startN + c)) else 0
  let k := fun c => loadRow (startN + c < kvLen) inp.headDim (inp.kCache (slots c) kvHead)
  let v := fun c => loadRow (startN + c < kvLen) inp.headDim (inp.vCache (slots c) kvHead)
  onlineTile E (∀ lane < blockM, ∀ c < blockN, ¬ finalMask lane c) blockN (finalMask lane)
    (fun c => rowDot inp.blockD q (k c) * inp.smScale) v st

/-- A row of `_extend_attention_kernel`. -/
def extendRow (blockM blockN seqId qHead blockMId lane : Nat) : Option (Nat → R) := do
  let blockQEnd := min (ext.qLen seqId) ((blockMId + 1) * blockM)
  let kvLoopEnd := min (inp.kvLen seqId) (ext.prefixLens seqId + blockQEnd)
  let st ← (List.range (cdiv kvLoopEnd blockN)).foldlM
    (inp.extendTile E ext blockM blockN seqId qHead blockMId lane)
    (SoftmaxState.start (inp.sink qHead))
  pure st.out

/-- A tile of the prefix. Without a window none is skipped. -/
def extendPrefixTile (blockM blockN seqId qHead blockMId lane : Nat) (st : SoftmaxState R)
    (tile : Nat) : Option (SoftmaxState R) :=
  let kvHead := qHead / inp.group
  let qLen := ext.qLen seqId
  let kvStart := inp.kvIndptr seqId
  let prefixLen := ext.prefixLens seqId
  let offsM := offsM blockM blockMId
  let q := inp.extendQuery ext blockM seqId qHead blockMId lane
  let startN := tile * blockN
  let finalMask := fun lane c => offsM lane < qLen ∧ startN + c < prefixLen ∧
    (0 < inp.window → prefixLen + offsM lane < startN + c + inp.window)
  let slots := fun c =>
    if startN + c < prefixLen then inp.kvIndices (kvStart + (startN + c)) else 0
  let k := fun c => loadRow (startN + c < prefixLen) inp.headDim (inp.kCache (slots c) kvHead)
  let v := fun c => loadRow (startN + c < prefixLen) inp.headDim (inp.vCache (slots c) kvHead)
  onlineTile E (0 < inp.window ∧ ∀ lane < blockM, ∀ c < blockN, ¬ finalMask lane c) blockN
    (finalMask lane) (fun c => rowDot inp.blockD q (k c) * inp.smScale) v st

/-- A tile of the new rows, whose positions are counted from the first of them. -/
def extendCurrentTile (kExtend vExtend : Nat → Nat → Nat → R)
    (blockM blockN seqId qHead blockMId lane : Nat) (st : SoftmaxState R) (tile : Nat) :
    Option (SoftmaxState R) :=
  let kvHead := qHead / inp.group
  let qStart := ext.qoIndptr seqId
  let qLen := ext.qLen seqId
  let currentEnd := min qLen ((blockMId + 1) * blockM)
  let offsM := offsM blockM blockMId
  let q := inp.extendQuery ext blockM seqId qHead blockMId lane
  let startN := tile * blockN
  let finalMask := fun lane c => offsM lane < qLen ∧ startN + c < currentEnd ∧
    startN + c ≤ offsM lane ∧ (0 < inp.window → offsM lane < startN + c + inp.window)
  let k := fun c => loadRow (startN + c < currentEnd) inp.headDim
    (kExtend (qStart + (startN + c)) kvHead)
  let v := fun c => loadRow (startN + c < currentEnd) inp.headDim
    (vExtend (qStart + (startN + c)) kvHead)
  onlineTile E (0 < inp.window ∧ ∀ lane < blockM, ∀ c < blockN, ¬ finalMask lane c) blockN
    (finalMask lane) (fun c => rowDot inp.blockD q (k c) * inp.smScale) v st

/-- A row of `_extend_attention_split_kernel`: the prefix from the cache, then the new rows. -/
def extendSplitRow (kExtend vExtend : Nat → Nat → Nat → R)
    (blockM blockN seqId qHead blockMId lane : Nat) : Option (Nat → R) := do
  let currentEnd := min (ext.qLen seqId) ((blockMId + 1) * blockM)
  let middle ← (List.range (cdiv (ext.prefixLens seqId) blockN)).foldlM
    (inp.extendPrefixTile E ext blockM blockN seqId qHead blockMId lane)
    (SoftmaxState.start (inp.sink qHead))
  let st ← (List.range (cdiv currentEnd blockN)).foldlM
    (inp.extendCurrentTile E ext kExtend vExtend blockM blockN seqId qHead blockMId lane) middle
  pure st.out

def extendWrites (blockM blockN qHead : Nat) (program : Nat × Nat) (token : Nat) :
    Option (Option (Nat → R)) :=
  let qStart := ext.qoIndptr program.1
  let first := qStart + program.2 * blockM
  if (first ≤ token ∧ token < first + blockM) ∧ token - qStart < ext.qLen program.1
  then some (match ext.extend with
    | none => inp.extendRow E ext blockM blockN program.1 qHead program.2 (token - first)
    | some rows => inp.extendSplitRow E ext rows.1 rows.2 blockM blockN program.1 qHead program.2
        (token - first))
  else none

/-- `out` is what the buffer holds before. -/
def extendPagedAttention (blockM blockN : Nat) (out : Nat → Nat → Option (Nat → R))
    (token qHead : Nat) : Option (Nat → R) :=
  storeAll ((List.range ext.numSeqs).flatMap fun seqId =>
      (List.range (cdiv ext.maxQLen blockM)).map fun blockMId => (seqId, blockMId))
    (inp.extendWrites E ext blockM blockN qHead) (fun token => out token qHead) token

/-! ### What a query is to read -/

def attendedKeys (position : Nat) : Finset Nat :=
  Finset.Icc (if inp.window = 0 then 0 else position + 1 - inp.window) position

def keyScore (kvHead req token head key : Nat) : R :=
  (∑ i ∈ Finset.range inp.headDim,
    inp.q token head i * inp.kCache (inp.kvIndices (inp.kvIndptr req + key)) kvHead i) * inp.smScale

/-- **The softmax-weighted sum over the keys of a position**, with the sink in the denominator. -/
def softmaxAttention (kvHead req token head position d : Nat) : R :=
  (∑ key ∈ inp.attendedKeys position, E.exp (inp.keyScore kvHead req token head key) *
      inp.vCache (inp.kvIndices (inp.kvIndptr req + key)) kvHead d) /
    (((inp.sink head).map E.exp).getD 0 +
      ∑ key ∈ inp.attendedKeys position, E.exp (inp.keyScore kvHead req token head key))

end AttnInputs

end FreeToken
