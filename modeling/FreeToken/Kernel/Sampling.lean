/-
**The top-k and top-p sampling of a row of probabilities.**
-/

import FreeToken.Lib.BlockLoop
import FreeToken.Lib.Stores
import Mathlib.Algebra.Order.Ring.Rat

namespace FreeToken.Sampling

def kBins : Nat := 256
def pmBins : Nat := 256

def infBits : Int := 0x7F800000

/-- A row of probabilities, by their patterns: none is negative or infinite. -/
structure ProbRow where
  bits : List Nat
  finite : ∀ y ∈ bits, y < 0x7F800000

def units (y : Nat) : Nat :=
  if y < 2 ^ 23 then y else (2 ^ 23 + y % 2 ^ 23) * 2 ^ (y / 2 ^ 23 - 1)

def value (y : Nat) : ℚ := units y / 2 ^ 149

def ProbRow.pattern (row : ProbRow) (off : Nat) : Nat := row.bits.getD off 0

/-- The grid over a row: `G` CTAs, one `CHUNK` for each, in blocks of `BLOCK` lanes. -/
structure Grid (V : Nat) where
  ctas : Nat
  chunk : Nat
  block : Nat
  covers : V ≤ ctas * chunk
  lanes : 0 < block

namespace Grid

variable {V : Nat} (grid : Grid V)

def start (cta : Nat) : Nat := cta * grid.chunk
def stop (cta : Nat) : Nat := min (grid.start cta + grid.chunk) V

def blocks (cta : Nat) : List Nat := blockStarts (grid.start cta) (grid.stop cta) grid.block

end Grid

/-! ### The rounds -/

def inRange (mask : Bool) (y lo : Int) (width : Nat) : Bool :=
  if width = 0 then mask && lo ≤ y && y ≤ infBits
  else mask && lo ≤ y && wrap32 (y - lo) < width && y ≤ infBits

def binOf (y lo : Int) (s : Nat) : Int := wrap32 (y - lo) >>> s

def cumsum {M : Type} [AddMonoid M] (h : Nat → M) (jj : Nat) : M :=
  ((List.range (jj + 1)).map h).sum

section Refine

variable {M : Type} [AddGroup M] [LE M] [DecidableLE M]

/-- `tl.sum` over the bins. -/
def total (bins : Nat) (h : Nat → M) : M := ((List.range bins).map h).sum

/-- The last bin that is `ok`, or -1. -/
def lastOk (bins : Nat) (h : Nat → M) (above target : M) : Int :=
  ((List.range bins).map fun jj : Nat =>
    if target ≤ above + total bins h - cumsum h jj + h jj then (jj : Int) else -1).foldr max (-1)

/-- `prefix_j` -/
def sumUpTo (bins : Nat) (h : Nat → M) (j : Int) : M :=
  ((List.range bins).map fun jj : Nat => if (jj : Int) ≤ j then h jj else 0).sum

end Refine

def rounds : List (Nat × Nat) := [(23, 0), (15, 1 <<< 23), (7, 1 <<< 15), (0, 1 <<< 7)]

section Row

variable (row : ProbRow) (grid : Grid row.bits.length)

/-- The pattern of a lane in `_bits_round`: a padding lane reads -1.0. -/
def laneBits (stop off : Nat) : Int := if off < stop then row.pattern off else -1082130432

def laneBin (lo : Int) (s width stop off : Nat) : Int :=
  if inRange (off < stop) (laneBits row stop off) lo width then binOf (laneBits row stop off) lo s
  else 0

/-- The counts of one CTA: `tl.histogram` of each block, less those out of the bracket. -/
def ctaHist (cta : Nat) (lo : Int) (s width jj : Nat) : Int :=
  ((grid.blocks cta).map fun s0 =>
    ((blockLanes grid.block s0).countP (laneBin row lo s width (grid.stop cta) · = jj) : Int) -
      if jj = 0 then ((blockLanes grid.block s0).countP fun off =>
        !inRange (off < grid.stop cta) (laneBits row (grid.stop cta) off) lo width : Int)
      else 0).sum

def histogram (lo : Int) (s width jj : Nat) : Int :=
  ((List.range grid.ctas).map fun cta => ctaHist row grid cta lo s width jj).sum

/-- A radix round over the counts of the bins. -/
def bitsRound (target : Int) (state : Int × Int) (round : Nat × Nat) : Int × Int :=
  let h := histogram row grid state.1 round.1 round.2
  let j := lastOk kBins h state.2 target
  if 0 ≤ j then
    (wrap32 (state.1 + j <<< round.1), state.2 + total kBins h - sumUpTo kBins h j)
  else state

/-- The threshold that the four rounds of `_topk_fused` end with. -/
def topkBits (topk : Int) : Int := (rounds.foldl (bitsRound row grid (max topk 1)) (0, 0)).1

def ctaMass (cta : Nat) (lo : Int) (s width jj : Nat) : ℚ :=
  ((grid.blocks cta).map fun s0 => ((blockLanes grid.block s0).map fun off =>
    if inRange (off < grid.stop cta) (row.pattern off) lo width ∧
        binOf (row.pattern off) lo s = jj then value (row.pattern off) else 0).sum).sum

def binMasses (lo : Int) (s width jj : Nat) : ℚ :=
  ((List.range grid.ctas).map fun cta => ctaMass row grid cta lo s width jj).sum

/-- A radix round over the masses of the bins. -/
def pmassRound (target : ℚ) (state : Int × ℚ) (round : Nat × Nat) : Int × ℚ :=
  let m := binMasses row grid state.1 round.1 round.2
  let j := max (lastOk pmBins m state.2 target) 0
  (wrap32 (state.1 + j <<< round.1), state.2 + total pmBins m - sumUpTo pmBins m j)

/-! ### What is kept -/

/-- `x >= thr`, a comparison of numbers: that of the pattern `thr` may be negative, or none at all. -/
def keeps (y : Nat) (thr : Int) : Bool :=
  if 0 ≤ thr then thr ≤ infBits ∧ value thr.toNat ≤ value y else thr + 2 ^ 31 ≤ infBits

def laneMass (thr : Int) (stop off : Nat) : ℚ :=
  if off < stop ∧ keeps (row.pattern off) thr then value (row.pattern off) else 0

def keptMass (thr : Int) (cta : Nat) : ℚ :=
  ((grid.blocks cta).map fun s0 =>
    ((blockLanes grid.block s0).map (laneMass row thr (grid.stop cta))).sum).sum

def keptSum (thr : Int) : ℚ := ((List.range grid.ctas).map (keptMass row grid thr)).sum

/-- The threshold that the rounds of `_topp_fused` end with. -/
def toppBits (topk : Option Int) (topp : ℚ) : Int :=
  match topk with
  | some k =>
    let lo := topkBits row grid k
    (rounds.foldl (pmassRound row grid (topp * keptSum row grid lo)) (lo, 0)).1
  | none => (rounds.foldl (pmassRound row grid topp) (0, 0)).1

/-- The stores of `_keep_tail` where it does not draw. -/
def renormStores (thr : Int) : List (Int × ℚ) :=
  let inv := 1 / keptSum row grid thr
  (List.range grid.ctas).flatMap fun cta => (grid.blocks cta).flatMap fun s0 =>
    (blockLanes grid.block s0).filterMap fun off =>
      if off < grid.stop cta then
        some ((off : Int), if keeps (row.pattern off) thr then value (row.pattern off) * inv else 0)
      else none

/-! ### The draw -/

/-- The state of a CTA that draws: the mass before it, its last kept lane, and its stores. -/
structure Drawing where
  acc : ℚ
  lastKept : Int
  stores : List Nat

/-- One block of the loop that draws. -/
def drawBlock (thr : Int) (tgt : ℚ) (stop : Nat) (drawing : Drawing) (s0 : Nat) : Drawing :=
  let V := row.bits.length
  let lanes := blockLanes grid.block s0
  let wv := laneMass row thr stop
  let cval := fun i => drawing.acc + cumsum (fun lane => wv (s0 + lane)) i
  let blkMin := ((List.range grid.block).map fun i => if tgt < cval i then s0 + i else V).foldr min V
  { acc := drawing.acc + (lanes.map wv).sum
    lastKept := max drawing.lastKept ((lanes.map fun off : Nat =>
      if (off < stop ∧ keeps (row.pattern off) thr) ∧ 0 < value (row.pattern off) then (off : Int)
      else -1).foldr max (-1))
    stores := drawing.stores ++ if blkMin < V ∧ drawing.acc ≤ tgt then [blkMin] else [] }

def ctaLanes (thr : Int) (goff : Nat) : ℚ := if goff < grid.ctas then keptMass row grid thr goff else 0

/-- The tokens that one CTA stores. -/
def drawCta (thr : Int) (u : ℚ) (cta : Nat) : List Nat :=
  let ps := ctaLanes row grid thr
  let gpow2 := List.range (nextPowerOf2 grid.ctas)
  let acc := (gpow2.map fun goff => if goff < cta then ps goff else 0).sum
  let incl := (gpow2.map fun goff => if goff ≤ cta then ps goff else 0).sum
  let tgt := u * (gpow2.map ps).sum
  let drawing := (grid.blocks cta).foldl (drawBlock row grid thr tgt (grid.stop cta)) ⟨acc, -1, []⟩
  let isLastMass := gpow2.countP fun goff => cta < goff ∧ 0 < ps goff
  drawing.stores ++ if drawing.acc ≤ tgt ∧ 0 ≤ drawing.lastKept ∧ (tgt < incl ∨ isLastMass = 0)
    then [drawing.lastKept.toNat] else []

def drawStores (thr : Int) (u : ℚ) : List Nat :=
  (List.range grid.ctas).flatMap (drawCta row grid thr u)

end Row

end FreeToken.Sampling
