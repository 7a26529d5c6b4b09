/-
**The DF11 format of the weights.**

The exponent of every bfloat16 value is Huffman-coded, its sign and mantissa are kept as they are.

A 32-bit tensor is a list of bit vectors. The 64-bit integers are unbounded: the bits of a matrix that
fits an address space are fewer than `2 ^ 63`.
-/

import FreeToken.Lib.BitStream
import FreeToken.Lib.PrefixCode
import FreeToken.Lib.Tiling
import Mathlib.Data.List.Sort

namespace FreeToken.Df11

open PrefixCode BitStream

structure Bf16Matrix where
  rows : Nat
  cols : Nat
  data : List (BitVec 16)
  whole : data.length = rows * cols
  deriving DecidableEq, Repr

/-! ### The code -/

/-- An item of the heap: a frequency, the order of its push, and a tree. -/
structure Entry where
  freq : Nat
  order : Nat
  tree : CodeTree Nat
  deriving DecidableEq, Repr

/-- The comparison of two items. No two have one order, so the trees are never compared. -/
def Entry.lt (first second : Entry) : Bool :=
  first.freq < second.freq || first.freq == second.freq && first.order < second.order

/-- `heapq.heappush`. The heap stands in the order in which `heapq.heappop` empties it. -/
def heappush (entry : Entry) : List Entry → List Entry
  | [] => [entry]
  | head :: heap => if entry.lt head then entry :: head :: heap else head :: heappush entry heap

/-- The first loop of `_huffman_lengths`. -/
def pushLeaves : Nat → List (Nat × Nat) → List Entry → List Entry
  | _, [], heap => heap
  | order, (sym, f) :: freq, heap =>
      pushLeaves (order + 1) freq (heappush ⟨f, order, .leaf sym⟩ heap)

/-- The second loop of `_huffman_lengths`, and the tree that is left. A heap of `n` items is merged
in `n` rounds. -/
def mergeHeap : Nat → Nat → List Entry → Option (CodeTree Nat)
  | _, _, [] => none
  | _, _, [entry] => some entry.tree
  | 0, _, _ => none
  | rounds + 1, order, first :: second :: heap =>
      mergeHeap rounds (order + 1)
        (heappush ⟨first.freq + second.freq, order, .node first.tree second.tree⟩ heap)

def huffmanLengths (freq : List (Nat × Nat)) : Option (List (Nat × Nat)) :=
  match freq with
  | [(sym, _)] => some [(sym, 1)]
  | _ => do
      let tree ← mergeHeap freq.length freq.length (pushLeaves 0 freq [])
      return (tree.leaves 0).map fun leaf => (leaf.1, max leaf.2 1)

/-- The loop of `_length_limited_lengths`. -/
def limitLengths (lmax : Nat) : Nat → Nat → List (Nat × Nat) → Option (List (Nat × Nat))
  | 0, _, _ => none
  | rounds + 1, floor, f => do
      let lengths ← huffmanLengths f
      if (lengths.map Prod.snd).foldr max 0 ≤ lmax then return lengths
      let floor := floor * 2
      limitLengths lmax rounds floor (f.map fun entry => (entry.1, max entry.2 floor))

/-- `_length_limited_lengths`. The floor has passed every frequency after as many rounds as there are
values. -/
def lengthLimitedLengths (freq : List (Nat × Nat)) (lmax : Nat) : Option (List (Nat × Nat)) :=
  limitLengths lmax ((freq.map Prod.snd).sum + 2) 1 freq

def canonicalOrder (first second : Nat × Nat) : Prop :=
  first.2 < second.2 ∨ first.2 = second.2 ∧ first.1 ≤ second.1

instance : DecidableRel canonicalOrder := fun _ _ => inferInstanceAs (Decidable (_ ∨ _))

/-- The loop of `_canonical_codes`, behind the first symbol. -/
def nextCodes (code prevLen : Nat) : List (Nat × Nat) → List (Code Nat)
  | [] => []
  | (sym, length) :: items =>
      let code := (code + 1) <<< (length - prevLen)
      ⟨sym, code, length⟩ :: nextCodes code length items

def canonicalCodes (lengths : List (Nat × Nat)) : List (Code Nat) :=
  match lengths.insertionSort canonicalOrder with
  | [] => []
  | (sym, length) :: items => ⟨sym, 0, length⟩ :: nextCodes 0 length items

def buildLut (codes : List (Code Nat)) (lmax : Nat) : List Nat :=
  (List.range (1 <<< lmax)).map
    (fill lmax (fun code => code.symbol <<< 8 ||| code.length) codes fun _ => 0)

structure Tables where
  lut : List Nat
  codeArr : Nat → Nat
  lenArr : Nat → Nat

def frequencies (hist : Nat → Nat) : List (Nat × Nat) :=
  ((List.range 256).filter fun sym => hist sym ≠ 0).map fun sym => (sym, hist sym)

def huffmanTables (hist : Nat → Nat) (lmax : Nat) : Option Tables := do
  let codes := canonicalCodes (← lengthLimitedLengths (frequencies hist) lmax)
  return {
    lut := buildLut codes lmax
    codeArr := codes.foldl (fun arr code => Function.update arr code.symbol code.code) fun _ => 0
    lenArr := codes.foldl (fun arr code => Function.update arr code.symbol code.length) fun _ => 0 }

/-! ### The parts of a value -/

/-- `(bits >> 7) & 0xFF` of the low 16 bits. -/
def exponent (b : BitVec 16) : Nat := (b.toNat >>> 7) &&& 0xFF

def exponentOfSigned (b : BitVec 16) : Nat := ((b.signExtend 32).sshiftRight 7 &&& 0xFF#32).toNat

def lowByte (b : BitVec 16) : Nat := (((b.toNat >>> 15) &&& 1) <<< 7) ||| (b.toNat &&& 0x7F)

def join (exp low : Nat) : BitVec 16 :=
  BitVec.ofNat 16 ((((low >>> 7) &&& 1) <<< 15) ||| (exp <<< 7) ||| (low &&& 0x7F))

def bincount (exps : List Nat) (sym : Nat) : Nat := exps.count sym

/-- `torch.cumsum(values)[:-1]` behind a zero. -/
def exclusive (values : Nat → Nat) (n : Nat) : Nat := ((List.range n).map values).sum

/-! ### The words -/

/-- The high and the low part of a code, in the word of its first bit and in the next one. -/
def high (item : Item) : Nat :=
  let o := item.offset &&& 31
  let bitsInW := min item.length (32 - o)
  let rem := item.length - bitsInW
  (item.code >>> rem) <<< (32 - o - bitsInW)

def low (item : Item) : Nat :=
  let o := item.offset &&& 31
  let bitsInW := min item.length (32 - o)
  let rem := item.length - bitsInW
  (item.code &&& ((1 <<< rem) - 1)) <<< (32 - rem)

/-- The two calls of `index_add_`. -/
def indexAdd (words : Nat → Nat) (items : List Item) (w : Nat) : Nat :=
  words w + ((items.map fun item => if item.offset >>> 5 = w then high item else 0).sum +
      (items.map fun item => if (item.offset >>> 5) + 1 = w then low item else 0).sum)

/-- `(words & 0xFFFFFFFF).to(torch.int32)`. -/
def toStream (words : Nat → Nat) (numWords : Nat) : List (BitVec 32) :=
  (List.range numWords).map fun w => BitVec.ofNat 32 (words w &&& 0xFFFFFFFF)

/-- `stream[w] if w < nwords else 0`, where a negative index counts from the end and one too far
from it raises. -/
def streamAt (stream : List (BitVec 32)) (w : Int) : Option Nat :=
  if w < stream.length then
    if 0 ≤ w then (stream[w.toNat]?).map BitVec.toNat
    else if 0 ≤ w + stream.length then (stream[(w + stream.length).toNat]?).map BitVec.toNat
    else none
  else some 0

def peek (stream : List (BitVec 32)) (lmax : Nat) (pos : Int) : Option Nat := do
  let w := pos / 32
  let o := (pos % 32).toNat
  let hi ← streamAt stream w
  let lo ← streamAt stream (w + 1)
  return (((hi <<< 32) ||| lo) >>> (64 - o - lmax)) &&& ((1 <<< lmax) - 1)

def decodeFrom (stream : List (BitVec 32)) (lut : List Nat) (lmax : Nat) :
    Nat → Int → Option (List Nat)
  | 0, _ => some []
  | count + 1, pos => do
      let combined ← lut[← peek stream lmax pos]?
      let later ← decodeFrom stream lut lmax count (pos + (combined &&& 0xFF : Nat))
      return (combined >>> 8) :: later

/-! ### The layout with rows as chunks -/

structure RowBundle where
  low8 : List Nat
  bitstream : List (BitVec 32)
  chunkStart : List Nat
  lut : List Nat
  rows : Nat
  cols : Nat
  n : Nat
  lmax : Nat
  deriving DecidableEq

/-- `range(0, rows, row_block)`, each with the end of its block. -/
def rowBlocks (rows rowBlock : Nat) : List (Nat × Nat) :=
  (List.range ((rows + rowBlock - 1) / rowBlock)).map fun i =>
    (i * rowBlock, min (i * rowBlock + rowBlock) rows)

variable (weight : Bf16Matrix)

/-- `weight[r0:r1].reshape(-1)`. -/
def Bf16Matrix.block (rows : Nat × Nat) : List (BitVec 16) :=
  (weight.data.take (rows.2 * weight.cols)).drop (rows.1 * weight.cols)

def firstPass (blocks : List (Nat × Nat)) : (Nat → Nat) × List Nat :=
  blocks.foldl
    (fun (hist, low8) rows =>
      let b := weight.block rows
      (fun sym => hist sym + bincount (b.map exponent) sym,
        setSlice low8 (rows.1 * weight.cols) (b.map lowByte)))
    (fun _ => 0, List.replicate (weight.rows * weight.cols) 0)

def secondPass (lenArr : Nat → Nat) (blocks : List (Nat × Nat)) : List Nat :=
  blocks.foldl
    (fun rowBits rows =>
      let lens := (weight.block rows).map (lenArr ∘ exponentOfSigned)
      setSlice rowBits rows.1 ((List.range (rows.2 - rows.1)).map fun r =>
        ((lens.drop (r * weight.cols)).take weight.cols).sum))
    (List.replicate weight.rows 0)

def blockItems (tables : Tables) (chunkStart : Nat → Nat) (rows : Nat × Nat) : List Item :=
  let exps := (weight.block rows).map exponent
  (List.range exps.length).map fun p =>
    let r := p / weight.cols
    let k := p % weight.cols
    let exp := exps.getD p 0
    let rowPrefix := exclusive (fun q => tables.lenArr (exps.getD (r * weight.cols + q) 0)) k
    ⟨chunkStart (rows.1 + r) + rowPrefix, tables.codeArr exp, tables.lenArr exp⟩

def thirdPass (tables : Tables) (chunkStart : Nat → Nat) (blocks : List (Nat × Nat)) : Nat → Nat :=
  blocks.foldl (fun words rows => indexAdd words (blockItems weight tables chunkStart rows))
    fun _ => 0

/-- The layout in which every row is a chunk. -/
def df11CompressRows (lmax rowBlock : Nat) : Option RowBundle := do
  let blocks := rowBlocks weight.rows rowBlock
  let (hist, low8) := firstPass weight blocks
  let tables ← huffmanTables hist lmax
  let rowBits := secondPass weight tables.lenArr blocks
  let chunkStart := exclusive fun r => rowBits.getD r 0
  let totalBits := if weight.rows = 0 then 0
    else chunkStart (weight.rows - 1) + rowBits.getD (weight.rows - 1) 0
  let numWords := (totalBits + 31) / 32 + 2
  let words := thirdPass weight tables chunkStart blocks
  return {
    low8 := low8
    bitstream := toStream words numWords
    chunkStart := (List.range weight.rows).map chunkStart
    lut := tables.lut
    rows := weight.rows
    cols := weight.cols
    n := weight.rows * weight.cols
    lmax := lmax }

def decodeRow (c : RowBundle) (r : Nat) : Option (List Nat) := do
  decodeFrom c.bitstream c.lut c.lmax c.cols (← c.chunkStart[r]?)

def df11DecompressRowsRef (c : RowBundle) : Option (List (BitVec 16)) := do
  let expOut := (← (List.range c.rows).mapM (decodeRow c)).flatten
  return (expOut.zip c.low8).map fun value => join value.1 value.2

def gatherRows (c : RowBundle) (ids : List Nat) : Option (List (List (BitVec 16))) :=
  ids.mapM fun r => do
    let exps ← decodeRow c r
    return (exps.zip ((c.low8.drop (r * c.cols)).take c.cols)).map fun value => join value.1 value.2

/-! ### The interleaved layout -/

structure Bundle where
  low8 : List Nat
  bitstream : List (BitVec 32)
  chunkStart : List (BitVec 32)
  lut : List Nat
  outFeatures : Nat
  inFeatures : Nat
  n : Nat
  numChunks : Nat
  rows : Nat
  lmax : Nat
  deriving DecidableEq

section Places

variable (wLen : List Nat) (g rows : Nat)

def len2d (i j : Nat) : Nat := wLen.getD (i * g + j) 0

def colBits (j : Nat) : Nat := ((List.range rows).map fun i => len2d wLen g i j).sum

def chunkStart : Nat → Nat := exclusive (colBits wLen g rows)

def off (p : Nat) : Nat :=
  chunkStart wLen g rows (p % g) + exclusive (fun i => len2d wLen g i (p % g)) (p / g)

end Places

def packed (tables : Tables) (exps : List Nat) (g rows : Nat) : List Item :=
  let wLen := exps.map tables.lenArr
  (List.range exps.length).map fun p =>
    ⟨off wLen g rows p, tables.codeArr (exps.getD p 0), wLen.getD p 0⟩

/-- `num_chunks`, and the most values a chunk owns. -/
def chunksOf (n chunk : Nat) : Nat := (n + chunk - 1) / chunk
def rowsOf (n numChunks : Nat) : Nat := (n + numChunks - 1) / numChunks

/-- The interleaved layout, in which chunk `j` of `G` owns the values `j`, `j + G`, and so on. -/
def df11Compress (chunk lmax : Nat) : Option Bundle := do
  let n := weight.data.length
  let exps := weight.data.map exponent
  let tables ← huffmanTables (bincount exps) lmax
  let wLen := exps.map tables.lenArr
  let numChunks := chunksOf n chunk
  let rows := rowsOf n numChunks
  let totalBits := if n = 0 then 0
    else chunkStart wLen numChunks rows (numChunks - 1) + colBits wLen numChunks rows (numChunks - 1)
  let numWords := (totalBits + 31) / 32 + 2
  return {
    low8 := weight.data.map lowByte
    bitstream := toStream (indexAdd (fun _ => 0) (packed tables exps numChunks rows)) numWords
    chunkStart := (List.range numChunks).map fun j =>
      BitVec.ofNat 32 (chunkStart wLen numChunks rows j)
    lut := tables.lut
    outFeatures := weight.rows
    inFeatures := weight.cols
    n := n
    numChunks := numChunks
    rows := rows
    lmax := lmax }

/-- How many values chunk `j` owns: the loop over the rows stops at the first position past the
end. -/
def chunkLength (n numChunks rows j : Nat) : Nat :=
  ((List.range rows).takeWhile fun i => i * numChunks + j < n).length

/-- The symbols of chunk `j`. -/
def decodeChunk (c : Bundle) (j : Nat) : Option (List Nat) := do
  let start ← c.chunkStart[j]?
  decodeFrom c.bitstream c.lut c.lmax (chunkLength c.n c.numChunks c.rows j) start.toInt

/-- `exp_out[i * g + j] = ...`. -/
def scatterChunk (g : Nat) (expOut : List Nat) (j : Nat) (symbols : List Nat) : List Nat :=
  symbols.zipIdx.foldl (fun expOut (symbol, i) => expOut.set (i * g + j) symbol) expOut

def df11DecompressRef (c : Bundle) : Option (List (BitVec 16)) := do
  let expOut ← (List.range c.numChunks).foldlM (fun expOut j => do
    return scatterChunk c.numChunks expOut j (← decodeChunk c j)) (List.replicate c.n 0)
  return (expOut.zip c.low8).map fun value => join value.1 value.2

end FreeToken.Df11
