/-
**The dense linear layer over NVFP4 weights.**

The arithmetic is exact: sums and products are not rounded, and casts to the type of the output are
left out. The codes of a scale that are NaN on the FP8 unit stand for 480 and -480 here.
-/

import FreeToken.Kernel.E4m3
import FreeToken.Lib.Copies
import FreeToken.Lib.LastArriver
import FreeToken.Lib.StridedView
import FreeToken.Lib.Tiling
import Mathlib.Algebra.BigOperators.Intervals

namespace FreeToken.Nvfp4

open scoped BigOperators

/-! ### The decoding -/

def half (bits : BitVec 16) : ℚ := binaryValue 5 10 bits.toNat

/-- `_nvfp4_pair_f32`, `_nvfp4_pair_f16`: the codes at bits 0 and 16. -/
def pair (v : BitVec 32) : ℚ × ℚ :=
  let r := ((v <<< 9) &&& 0x0E000E00#32) ||| ((v &&& 0x00080008#32) <<< 12)
  (half ((r &&& 0xFFFF#32).setWidth 16), half ((r.sshiftRight 16).setWidth 16))

/-- `tl.split` of a tensor whose last dimension has two entries, by flat places. -/
def split (x : Nat → ℚ) : (Nat → ℚ) × (Nat → ℚ) := (fun i => x (2 * i), fun i => x (2 * i + 1))

structure Split8 where
  a0 : Nat → ℚ
  a1 : Nat → ℚ
  a2 : Nat → ℚ
  a3 : Nat → ℚ
  a4 : Nat → ℚ
  a5 : Nat → ℚ
  a6 : Nat → ℚ
  a7 : Nat → ℚ

/-- `_split8`, `_split8_rows`: a reshape keeps the flat places. -/
def split8 (aVec : Nat → ℚ) : Split8 :=
  let a3 := split aVec
  let e := split a3.1
  let o := split a3.2
  { a0 := (split e.1).1, a4 := (split e.1).2
    a2 := (split e.2).1, a6 := (split e.2).2
    a1 := (split o.1).1, a5 := (split o.1).2
    a3 := (split o.2).1, a7 := (split o.2).2 }

/-- A scale as it is loaded: by the FP8 unit, or by `e4m3_u8_to_f32`. -/
def scaleF32 (native : Bool) (code : BitVec 8) : ℚ :=
  if native then binaryValue 4 3 code.toNat else e4m3ToF32 code

/-- The same times 128: by the FP8 unit, or by `e4m3_u8_to_f16_x128`. -/
def scaleX128 (native : Bool) (code : BitVec 8) : ℚ :=
  if native then binaryValue 4 3 code.toNat * 128 else half (e4m3Half code) * 32768

/-! ### The operands -/

/-- The operands of a layer; the rows of the activation lie one behind the other. -/
structure Operands where
  x : Nat → ℚ
  packed : View (BitVec 32)
  scale : View (BitVec 8)
  gscale : Nat → ℚ
  native : Bool

namespace Operands

variable (op : Operands)

def N : Nat := op.packed.rows
def K : Nat := op.packed.cols * 8
def kWords : Nat := op.K / 8

/-- `packed[n0:n1]`, `scale[n0:n1]`, `gscale[n0:n1]` -/
def rowsFrom (n0 n1 : Nat) : Operands :=
  { op with
    packed := op.packed.rowsFrom n0 n1
    scale := op.scale.rowsFrom n0 n1
    gscale := fun n => op.gscale (n0 + n) }

/-- `nvfp4_transpose_resident`, as `nvfp4_dense_linear_t` reads it. -/
def transposeResident (words : Nat → BitVec 32) (codes : Nat → BitVec 8) : Operands :=
  { op with
    packed := (op.packed.t.contiguous words).t
    scale := (op.scale.t.contiguous codes).t }

end Operands

variable (op : Operands)

/-! ### The GEMV -/

def accWord (a : Split8) (w : Nat) (word : BitVec 32) : ℚ :=
  let b0 := pair word
  let b1 := pair (word.sshiftRight 4)
  let b2 := pair (word.sshiftRight 8)
  let b3 := pair (word.sshiftRight 12)
  0 + a.a0 w * b0.1 + a.a4 w * b0.2 + a.a1 w * b1.1 + a.a5 w * b1.2 +
    a.a2 w * b2.1 + a.a6 w * b2.2 + a.a3 w * b3.1 + a.a7 w * b3.2

variable (evenK : Bool)

/-- One tile of words of column `n`, for one lane; without `evenK` the loads are masked. -/
def gemvTile (blockKw n : Nat) (sums : Nat → ℚ) (tile : Nat) (w : Nat) : ℚ :=
  let widx := tile * blockKw + w
  let word := if evenK ∨ widx < op.kWords then op.packed.entry n widx else 0
  let scale := scaleF32 op.native
    (if evenK ∨ widx < op.kWords then op.scale.entry n (widx / 2) else 0) * 16384
  let aVec := fun i =>
    if evenK ∨ tile * blockKw * 8 + i < op.K then op.x (tile * blockKw * 8 + i) else 0
  sums w + accWord (split8 aVec) w word * scale

def gemvAcc (blockKw tileStart tiles n : Nat) : ℚ :=
  let sums := (List.range tiles).foldl
    (fun sums t => gemvTile op evenK blockKw n sums (tileStart + t)) fun _ => 0
  ∑ w ∈ Finset.range blockKw, sums w

def gemvBlockN : Nat := 32
variable (transp : Bool)

def gemvBlockKw : Nat := if transp then 16 else 32
def gemvSplitkBlockN : Nat := if transp then 32 else 16
def gemvSplitkBlockKw : Nat := 16
def gemvSplitkTarget : Nat := 1024

/-- The stores of `_nvfp4_gemv_kernel`. -/
def gemvStores : List (Copy Nat ℚ) :=
  let blockKw := gemvBlockKw transp
  let even : Bool := op.K % (blockKw * 8) = 0
  (List.range (cdiv op.N gemvBlockN)).flatMap fun pidN => (List.range gemvBlockN).flatMap fun j =>
    let n := pidN * gemvBlockN + j
    if n < op.N then
      [⟨n, .value (gemvAcc op even blockKw 0 (cdiv op.kWords blockKw) n * op.gscale n)⟩]
    else []

def numTiles (blockKw : Nat) : Nat := cdiv op.kWords blockKw

def evenSplit (blockKw splitK : Nat) : Bool :=
  op.K % (blockKw * 8) = 0 ∧ numTiles op blockKw = cdiv (numTiles op blockKw) splitK * splitK

/-- The tile of columns that a program of the split GEMV stores to; a masked lane is in none. -/
def columnTile (blockN n : Nat) : Nat := if n < op.N then n / blockN else cdiv op.N blockN

/-- A step of `_nvfp4_gemv_splitk_kernel`: `(pid_n, pid_k)`. -/
def gemvSplitStep (splitK : Nat) : Arrivals Nat ℚ → Nat × Nat → Arrivals Nat ℚ :=
  let tilesPer := cdiv (numTiles op gemvSplitkBlockKw) splitK
  arriveStep splitK (columnTile op (gemvSplitkBlockN transp))
    (fun pidK n => gemvAcc op (evenSplit op gemvSplitkBlockKw splitK) gemvSplitkBlockKw
      (pidK * tilesPer) tilesPer n)
    fun part n => (List.range splitK).foldl (fun total k => total + part k) 0 * op.gscale n

/-- `1 << (n.bit_length() - 1)` -/
def floorPow2 (n : Nat) : Nat := 1 <<< (Nat.log2 n)

/-- The number of parts of `_gemv`. -/
def gemvSplitK : Nat :=
  let nBlocks := cdiv op.N (gemvSplitkBlockN transp)
  floorPow2 (max 1 (min (gemvSplitkTarget / max nBlocks 1) (numTiles op gemvSplitkBlockKw)))

/-- `_gemv`: one pass, or the steps of the programs in some order. -/
def gemv (memory : Arrivals Nat ℚ) (events : List (Nat × Nat)) : Arrivals Nat ℚ :=
  let splitK := gemvSplitK op transp
  if splitK = 1 then { memory with out := runCopies memory.out (gemvStores op transp) }
  else events.foldl (gemvSplitStep op transp splitK) memory

/-! ### The GEMM -/

def gemmBlockKw : Nat := 16
def gemmBlockN : Nat := 128
def gemmSplitkTarget : Nat := 1024

/-- `tl.dot`, for one element. -/
def dot (b a : Nat → ℚ) (acc : ℚ) : ℚ := acc + ∑ w ∈ Finset.range gemmBlockKw, b w * a w

/-- One tile of words of `_nvfp4_gemm_kernel`, for the element of a row of the tile and column `n`. -/
def gemmTile (M blockM pidM r n tile0 : Nat) (acc : ℚ) (t : Nat) : ℚ :=
  let kwOk := fun w => (tile0 + t) * gemmBlockKw + w < op.kWords
  let word := fun w => if evenK ∨ kwOk w then
    op.packed.entry n (tile0 * gemmBlockKw + w + t * gemmBlockKw) else 0
  let s128 := fun w => scaleX128 op.native (if evenK ∨ kwOk w then
    op.scale.entry n ((tile0 * gemmBlockKw + w) / 2 + t * (gemmBlockKw / 2)) else 0)
  let aTile := fun flat =>
    let m := pidM * blockM + flat / (gemmBlockKw * 8)
    let i := flat % (gemmBlockKw * 8)
    if m < M ∧ (evenK ∨ (tile0 + t) * gemmBlockKw * 8 + i < op.K) then
      op.x (m * op.K + (tile0 * gemmBlockKw * 8 + i) + t * (gemmBlockKw * 8)) else 0
  let a := split8 aTile
  let row := fun (x : Nat → ℚ) w => x (r * gemmBlockKw + w)
  let lo := fun s w => (pair ((word w).sshiftRight s)).1 * s128 w
  let hi := fun s w => (pair ((word w).sshiftRight s)).2 * s128 w
  let acc := dot (lo 0) (row a.a0) acc
  let acc := dot (hi 0) (row a.a4) acc
  let acc := dot (lo 4) (row a.a1) acc
  let acc := dot (hi 4) (row a.a5) acc
  let acc := dot (lo 8) (row a.a2) acc
  let acc := dot (hi 8) (row a.a6) acc
  let acc := dot (lo 12) (row a.a3) acc
  dot (hi 12) (row a.a7) acc

def gemmAcc (M blockM pidM r n tile0 tiles : Nat) : ℚ :=
  (List.range tiles).foldl (gemmTile op evenK M blockM pidM r n tile0) 0

/-- The stores of `_nvfp4_gemm_kernel`: part, row and column; the global scale where there is one
part. -/
def gemmStores (M blockM splitK : Nat) : List (Copy (Nat × Nat × Nat) ℚ) :=
  let numPidN := cdiv op.N gemmBlockN
  let tilesPer := cdiv (numTiles op gemmBlockKw) splitK
  (List.range (cdiv M blockM * numPidN)).flatMap fun pidMn => (List.range splitK).flatMap fun pidK =>
    let pidM := pidMn / numPidN
    let pidN := pidMn % numPidN
    (List.range blockM).flatMap fun r => (List.range gemmBlockN).flatMap fun j =>
      let m := pidM * blockM + r
      let n := pidN * gemmBlockN + j
      let acc := gemmAcc op (evenSplit op gemmBlockKw splitK) M blockM pidM r n (pidK * tilesPer)
        tilesPer
      if m < M ∧ n < op.N then
        [⟨(pidK, m, n), .value (if splitK = 1 then acc * (op.gscale n * 128) else acc)⟩]
      else []

/-- The stores of `_nvfp4_gemm_splitk_reduce_kernel`. -/
def gemmReduceStores (M splitK block : Nat) (part : Nat × Nat × Nat → ℚ) :
    List (Copy (Nat × Nat × Nat) ℚ) :=
  (List.range M).flatMap fun pidM => (List.range (cdiv op.N block)).flatMap fun pid =>
    (List.range block).flatMap fun j =>
      let n := pid * block + j
      if n < op.N then
        [⟨(0, pidM, n), .value
          ((List.range splitK).foldl (fun acc k => acc + part (k, pidM, n)) 0 *
            (op.gscale n * 128))⟩]
      else []

/-- `while split_k * 2 <= max_sk and num_mn * split_k < min_grid: split_k *= 2` -/
def growSplit (maxSk numMn minGrid : Nat) : Nat → Nat → Nat
  | 0, splitK => splitK
  | fuel + 1, splitK =>
    if splitK * 2 ≤ maxSk ∧ numMn * splitK < minGrid then
      growSplit maxSk numMn minGrid fuel (splitK * 2)
    else splitK

variable (nearWave : Nat → Nat → Bool)

/-- `_pick_split_k_bm16`; `nearWave` is the comparison of the blocks with 0.85 and 1.15 waves. -/
def pickSplitKBm16 (numMn tiles wave : Nat) : Nat :=
  let maxSk := if tiles ≤ 16 then tiles else max (tiles / 3) 1
  let minGrid := wave - wave / 32
  let splitK := growSplit maxSk numMn minGrid maxSk 1
  if nearWave wave (numMn * splitK) ∧ splitK * 2 ≤ maxSk ∧ 10 * splitK ≤ tiles then splitK * 2
  else splitK

/-- `while even_k > 1 and num_tiles % even_k != 0: even_k //= 2` -/
def shrinkEven (tiles : Nat) : Nat → Nat → Nat
  | 0, evenK => evenK
  | fuel + 1, evenK =>
    if 1 < evenK ∧ tiles % evenK ≠ 0 then shrinkEven tiles fuel (evenK / 2) else evenK

def gemmBlockM (M : Nat) : Nat := if M ≤ 16 then 16 else if M ≤ 32 then 32 else 64

/-- The number of parts of `_gemm_inkernel`. -/
def gemmSplitK (wave M : Nat) : Nat :=
  let numMn := cdiv M (gemmBlockM M) * cdiv op.N gemmBlockN
  let tiles := numTiles op gemmBlockKw
  if gemmBlockM M = 16 then pickSplitKBm16 nearWave numMn tiles wave
  else
    let splitK := floorPow2 (max 1 (min (gemmSplitkTarget / max numMn 1) tiles))
    let evenK := shrinkEven tiles splitK splitK
    if splitK ≤ evenK * 4 then evenK else splitK

/-- `_gemm_inkernel`: the kernel, and a reduction where there are parts. -/
def gemmInkernel (wave M : Nat) (empty part : Nat × Nat × Nat → ℚ) :
    Nat × Nat → ℚ :=
  let splitK := gemmSplitK op nearWave wave M
  let stores := gemmStores op M (gemmBlockM M) splitK
  let out :=
    if splitK = 1 then runCopies empty stores
    else
      let block := if op.N ≤ 8192 then 128 else 512
      runCopies empty (gemmReduceStores op M splitK block (runCopies part stores))
  fun cell => out (0, cell)

/-! ### The decoded weight -/

def dequantValue (word : BitVec 32) (code : BitVec 8) (g : ℚ) (i : Nat) : ℚ :=
  let scale := scaleF32 op.native code * (16384 * g)
  let codes := word.sshiftRight (i * 4) &&& 0xF#32
  let r := ((codes <<< 9) &&& 0x0E00#32) ||| ((codes &&& 0x8#32) <<< 12)
  half (r.setWidth 16) * scale

/-- The stores of `_nvfp4_dequant_rows_kernel`. -/
def dequantRowsStores : List (Copy (Nat × Nat) ℚ) :=
  let blockKw := 128
  (List.range op.N).flatMap fun pidN => (List.range (cdiv op.packed.cols blockKw)).flatMap fun pidK =>
    (List.range blockKw).flatMap fun w => (List.range 8).flatMap fun i =>
      let kw := pidK * blockKw + w
      if kw < op.packed.cols then
        [⟨(pidN, kw * 8 + i), .value (dequantValue op (op.packed.entry pidN kw)
          (op.scale.entry pidN (kw / 2)) (op.gscale pidN) i)⟩]
      else []

/-- The stores of `_nvfp4_dequant_cols_kernel`: a tile of `[BLOCK_KW, 8, BLOCK_N]` values, reshaped and
transposed. -/
def dequantColsStores : List (Copy (Nat × Nat) ℚ) :=
  let blockN := 64
  let blockKw := 16
  (List.range (cdiv op.packed.cols blockKw)).flatMap fun pidK =>
    (List.range (cdiv op.N blockN)).flatMap fun pidN =>
      (List.range blockN).flatMap fun j => (List.range (blockKw * 8)).flatMap fun flat =>
        let n := pidN * blockN + j
        let kw := pidK * blockKw + flat / 8
        let ok := kw < op.packed.cols ∧ n < op.N
        let k := pidK * blockKw * 8 + flat
        if n < op.N ∧ k < op.packed.cols * 8 then
          [⟨(n, k), .value (dequantValue op (if ok then op.packed.entry n kw else 0)
            (if ok then op.scale.entry n (kw / 2) else 0)
            (if n < op.N then op.gscale n else 0) (flat % 8))⟩]
        else []

def dequantRows (buffer : Nat × Nat → ℚ) : Nat × Nat → ℚ :=
  runCopies buffer (if transp then dequantColsStores op else dequantRowsStores op)

/-- `torch.matmul(a, w.t())` -/
def matmul (w : Nat × Nat → ℚ) (cell : Nat × Nat) : ℚ :=
  ∑ k ∈ Finset.range op.K, op.x (cell.1 * op.K + k) * w (cell.2, k)

def scratchChunkBytes : Nat := 128 <<< 20

def scratchChunk (itemsize : Nat) : Nat :=
  let chunk := min op.N (scratchChunkBytes / (op.K * itemsize))
  max 256 (chunk - chunk % 256)

structure Scratch where
  out : Nat × Nat → ℚ
  w : Nat × Nat → ℚ

def scratchStep (s : Scratch) (range : Nat × Nat) : Scratch :=
  let part := op.rowsFrom range.1 range.2
  let wc := dequantRows part transp s.w
  { out := fun cell => if range.1 ≤ cell.2 ∧ cell.2 < range.2 then
      matmul part wc (cell.1, cell.2 - range.1) else s.out cell
    w := wc }

def gemmScratch (itemsize : Nat) (s : Scratch) : Nat × Nat → ℚ :=
  let chunk := scratchChunk op itemsize
  if op.N ≤ chunk then matmul op (dequantRows op transp s.w)
  else ((strides op.N chunk).foldl (scratchStep op transp) s).out

/-! ### What they should compute -/

def e2m1 (code : BitVec 4) : ℚ := binaryValue 2 1 code.toNat

/-- Code `k` of a row: nibble `k % 8` of word `k / 8`. -/
def codeAt (n k : Nat) : BitVec 4 := (op.packed.entry n (k / 8)).extractLsb' (k % 8 * 4) 4

/-- One output: each `k` once, in exact arithmetic. -/
def exact (m n : Nat) : ℚ :=
  (∑ k ∈ Finset.range op.K, op.x (m * op.K + k) * e2m1 (codeAt op n k) *
    scaleF32 op.native (op.scale.entry n (k / 16))) * op.gscale n

end FreeToken.Nvfp4
