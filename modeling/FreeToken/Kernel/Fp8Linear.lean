/-
**The block-scaled FP8 linear layer.**

The arithmetic is exact: sums are not rounded, and the cast to the type of the output is left out.
-/

import FreeToken.Kernel.E4m3
import FreeToken.Lib.Copies
import FreeToken.Lib.PartSums
import FreeToken.Lib.Tiling
import Mathlib.Tactic.Ring

namespace FreeToken

open List

open scoped BigOperators

/-- The quantized rows, a weight and their scales; rows lie one behind the other, those of the
weight as its strides say. -/
structure Fp8Operands where
  a : Nat → BitVec 8
  sa : Nat → BitVec 8
  w : Nat → BitVec 8
  sb : Nat → BitVec 8
  strideWn : Nat
  strideWk : Nat
  bias : Option (Nat → ℚ) := none
  /-- What a buffer holds that nothing was stored to. -/
  empty : Nat × Nat → ℚ := fun _ => 0

namespace Fp8Operands

variable (op : Fp8Operands) (K : Nat)

def row (m : Nat) : Fp8Operands :=
  { op with a := fun i => op.a (m * K + i), sa := fun i => op.sa (m * (K / 128) + i) }

def biasAt (n : Nat) : ℚ := (op.bias.map fun bias => bias n).getD 0

/-! ### The GEMM -/

structure GemmState where
  aPtr : Nat
  wPtr : Nat
  acc : ℚ

/-- One block of `_fp8_act_gemm_kernel`, for one element of the tile. -/
def gemmStep (m pidN : Nat) (st : GemmState) (k : Nat) : GemmState where
  aPtr := st.aPtr + 128
  wPtr := st.wPtr + 128 * op.strideWk
  acc := st.acc + (∑ i ∈ Finset.range 128,
      e4m3ToF32 (op.a (st.aPtr + i)) * e4m3ToF32 (op.w (st.wPtr + i * op.strideWk))) *
      e8m0 (op.sa (m * (K / 128) + k)) * e8m0 (op.sb (pidN * (K / 128) + k))

def gemmAcc (m pidN n : Nat) : ℚ :=
  ((List.range (cdiv K 128)).foldl (gemmStep op K m pidN) ⟨m * K, n * op.strideWn, 0⟩).acc

def gemmStores (M N : Nat) : List (Copy (Nat × Nat) ℚ) :=
  (List.range (cdiv M 32)).flatMap fun pidM => (List.range (cdiv N 128)).flatMap fun pidN =>
    (List.range 32).flatMap fun i => (List.range 128).flatMap fun j =>
      let m := pidM * 32 + i
      let n := pidN * 128 + j
      if m < M then [⟨(m, n), .value (gemmAcc op K m pidN n)⟩] else []

/-! ### The GEMV -/

/-- `_DECODE_FP8_CFG`: `BLOCK_N` and `SPLIT_K`. -/
def decodeFp8Cfg : List ((Nat × Nat) × Nat × Nat) :=
  [((1024, 4096), 16, 16), ((32768, 1024), 16, 1), ((512, 4096), 16, 16), ((4096, 8192), 16, 8),
    ((2048, 4096), 16, 8), ((4096, 2048), 16, 8), ((8192, 1024), 16, 2)]

theorem decodeFp8Cfg_whole : ∀ entry ∈ decodeFp8Cfg, 0 < entry.1.1 ∧ 0 < entry.2.1 ∧
    max 1 (min entry.2.2 (entry.1.2 / 128)) ∣ entry.1.2 / 128 := by
  decide

/-- `_decode_cfg`, without the number of warps: `BLOCK_N` and `SPLIT_K`; a weight without rows
divides by zero. -/
def decodeCfg (N K : Nat) : Option (Nat × Nat) :=
  match decodeFp8Cfg.lookup (N, K) with
  | some (bn, sk) => some (bn, max 1 (min sk (K / 128)))
  | none =>
      let nTiles := cdiv N 16
      if nTiles = 0 then none
      else
        let sk := 2 ^ Nat.log2 (max 1 (1536 / nTiles))
        some (16, max 1 (min sk (K / 128)))

/-- The sum of a part of a row, `_fp8_act_gemv_splitk_kernel`. -/
def gemvAcc (splitK pidK n : Nat) : ℚ :=
  let kPer := K / splitK
  let kStart := pidK * kPer
  (List.range (cdiv kPer 128)).foldl
    (fun acc step =>
      let k0 := step * 128
      let kb := (kStart + k0) / 128
      acc + (∑ i ∈ Finset.range 128,
        e4m3ToF32 (op.w (n * op.strideWn + (kStart + k0 + i) * op.strideWk)) *
          e4m3ToF32 (op.a (kStart + k0 + i))) *
        e8m0 (op.sb (n / 128 * (K / 128) + kb)) * e8m0 (op.sa kb)) 0

/-- The stores to `part`. -/
def gemvStores (N blockN splitK : Nat) : List (Copy (Nat × Nat) ℚ) :=
  (List.range (cdiv N blockN)).flatMap fun pidN => (List.range splitK).flatMap fun pidK =>
    (List.range blockN).flatMap fun j =>
      let n := pidN * blockN + j
      if n < N then [⟨(pidK, n), .value (gemvAcc op K splitK pidK n)⟩] else []

/-- `_splitk_reduce_kernel`. -/
def reduceStores (N splitK : Nat) (part : Nat × Nat → ℚ) : List (Copy (Nat × Nat) ℚ) :=
  (List.range (cdiv N 256)).flatMap fun pid => (List.range 256).flatMap fun j =>
    let n := pid * 256 + j
    if n < N then
      [⟨(0, n), .value ((List.range splitK).foldl (fun acc k => acc + part (k, n)) 0)⟩]
    else []

def fp8ActGemv (N : Nat) : Option (Nat × Nat → ℚ) := do
  let (blockN, splitK) ← decodeCfg N K
  let part := runCopies op.empty (gemvStores op K N blockN splitK)
  return runCopies op.empty (reduceStores N splitK part)

/-- `block_fp8_linear`, of the quantized activation. -/
def blockFp8Linear (M N : Nat) : Option (Nat × Nat → ℚ) := do
  guard (K % 128 = 0 ∧ N % 128 = 0)
  let out ←
    (if M = 1 then fp8ActGemv op K N else some (runCopies op.empty (gemmStores op K M N)))
  return fun cell => out cell + biasAt op cell.2

/-! ### What they should compute -/

def block (m n b : Nat) : ℚ :=
  (∑ i ∈ Finset.range 128, e4m3ToF32 (op.a (m * K + (128 * b + i))) *
    e4m3ToF32 (op.w (n * op.strideWn + (128 * b + i) * op.strideWk))) *
    e8m0 (op.sa (m * (K / 128) + b)) * e8m0 (op.sb (n / 128 * (K / 128) + b))

def blockSum (m n : Nat) : ℚ := ∑ b ∈ Finset.range (K / 128), block op K m n b

end Fp8Operands

/-- **The decode path is exact**: a row by itself gives what it gives among others, the sum over all
blocks. -/
def DecodeExact (N K : Nat) : Prop :=
  ∀ (op : Fp8Operands) (M m : Nat), 2 ≤ M → m < M →
    ∃ one all, (op.row K m).blockFp8Linear K 1 N = some one ∧ op.blockFp8Linear K M N = some all ∧
      ∀ n, n < N → one (0, n) = all (m, n) ∧ all (m, n) = op.blockSum K m n + op.biasAt n

/-! ### Grids of programs -/

namespace Fp8Operands

variable (op : Fp8Operands) {K : Nat}

section Gemm

theorem gemm_loop (m pidN n count : Nat) :
    (List.range count).foldl (gemmStep op K m pidN) ⟨m * K, n * op.strideWn, 0⟩ =
      ⟨m * K + 128 * count, n * op.strideWn + 128 * count * op.strideWk, ∑ k ∈ Finset.range count,
          (∑ i ∈ Finset.range 128, e4m3ToF32 (op.a (m * K + (128 * k + i))) *
            e4m3ToF32 (op.w (n * op.strideWn + (128 * k + i) * op.strideWk))) *
            e8m0 (op.sa (m * (K / 128) + k)) * e8m0 (op.sb (pidN * (K / 128) + k))⟩ := by
  induction count with
  | zero => simp
  | succ count ih =>
    rw [range_succ, foldl_append, ih, foldl_cons, foldl_nil, Finset.sum_range_succ]
    unfold gemmStep
    congr 1
    · rw [Nat.mul_succ, Nat.add_mul, Nat.add_assoc]
    · congr 3
      refine Finset.sum_congr rfl fun i _ => ?_
      rw [Nat.add_assoc, Nat.add_assoc, ← Nat.add_mul]

theorem gemmAcc_eq (m n blocks : Nat) (whole : K = 128 * blocks) :
    gemmAcc op K m (n / 128) n = blockSum op K m n := by
  unfold gemmAcc
  have count : K / 128 = blocks := by omega
  rw [gemm_loop, whole, cdiv_mul (by decide)]
  unfold blockSum block
  rw [← whole, count]

theorem gemm_exact {M N m n blocks : Nat} (whole : K = 128 * blocks) (isRow : m < M)
    (isCol : n < N) (memory : Nat × Nat → ℚ) :
    runCopies memory (gemmStores op K M N) (m, n) = blockSum op K m n := by
  refine runCopies_of_value ?_ fun copy mem here => ?_
  · refine mem_map.mpr ⟨⟨(m, n), .value (gemmAcc op K m (n / 128) n)⟩, ?_, rfl⟩
    refine mem_flatMap.mpr ⟨m / 32, mem_range.mpr (div_lt_cdiv (by decide) isRow), ?_⟩
    refine mem_flatMap.mpr ⟨n / 128, mem_range.mpr (div_lt_cdiv (by decide) isCol), ?_⟩
    refine mem_flatMap.mpr ⟨m % 32, mem_range.mpr (Nat.mod_lt _ (by decide)), ?_⟩
    refine mem_flatMap.mpr ⟨n % 128, mem_range.mpr (Nat.mod_lt _ (by decide)), ?_⟩
    rw [Nat.div_add_mod', Nat.div_add_mod', if_pos isRow]
    exact mem_cons_self
  · obtain ⟨pidM, -, mem⟩ := mem_flatMap.mp mem
    obtain ⟨pidN, -, mem⟩ := mem_flatMap.mp mem
    obtain ⟨i, -, mem⟩ := mem_flatMap.mp mem
    obtain ⟨j, isLane, mem⟩ := mem_flatMap.mp mem
    dsimp only at mem
    split at mem
    · obtain rfl := mem_singleton.mp mem
      obtain ⟨rfl, rfl⟩ := Prod.mk.inj here
      have tile : (pidN * 128 + j) / 128 = pidN := by
        have within := mem_range.mp isLane
        omega
      have sum := gemmAcc_eq op (pidM * 32 + i) (pidN * 128 + j) blocks whole
      rw [tile] at sum
      exact congrArg Source.value sum
    · cases mem

end Gemm

end Fp8Operands

namespace Fp8Operands

variable (op : Fp8Operands) {N K blockN splitK : Nat}

section Gemv

theorem decodeCfg_some (chosen : decodeCfg N K = some (blockN, splitK)) :
    0 < blockN ∧ 0 < splitK ∧ 0 < N := by
  unfold decodeCfg at chosen
  split at chosen
  · rename_i bn sk found
    obtain ⟨rfl, rfl⟩ := Prod.mk.inj (Option.some.inj chosen)
    obtain ⟨before, after, whole, -⟩ := lookup_eq_some_iff.mp found
    have mem : ((N, K), bn, sk) ∈ decodeFp8Cfg := by
      rw [whole]
      exact mem_append_right _ mem_cons_self
    obtain ⟨someN, someBlock, -⟩ := decodeFp8Cfg_whole _ mem
    exact ⟨someBlock, Nat.lt_of_lt_of_le Nat.one_pos (le_max_left _ _), someN⟩
  · dsimp only at chosen
    split at chosen
    · cases chosen
    · rename_i some_
      obtain ⟨rfl, rfl⟩ := Prod.mk.inj (Option.some.inj chosen)
      refine ⟨by decide, Nat.lt_of_lt_of_le Nat.one_pos (le_max_left _ _), ?_⟩
      refine Nat.pos_of_ne_zero fun none => some_ ?_
      rw [none]
      rfl

theorem gemvAcc_sum (pidK n : Nat) : gemvAcc op K splitK pidK n =
    ∑ step ∈ Finset.range (cdiv (K / splitK) 128), (∑ i ∈ Finset.range 128,
        e4m3ToF32 (op.w (n * op.strideWn + (pidK * (K / splitK) + step * 128 + i) * op.strideWk)) *
          e4m3ToF32 (op.a (pidK * (K / splitK) + step * 128 + i))) *
        e8m0 (op.sb (n / 128 * (K / 128) + (pidK * (K / splitK) + step * 128) / 128)) *
        e8m0 (op.sa ((pidK * (K / splitK) + step * 128) / 128)) :=
  foldl_add_range _ _

theorem gemvStores_get (pos : 0 < blockN) {pidK n : Nat} (isPart : pidK < splitK)
    (isCol : n < N) (memory : Nat × Nat → ℚ) :
    runCopies memory (gemvStores op K N blockN splitK) (pidK, n) = gemvAcc op K splitK pidK n := by
  refine runCopies_of_value ?_ fun copy mem here => ?_
  · refine mem_map.mpr ⟨⟨(pidK, n), .value (gemvAcc op K splitK pidK n)⟩, ?_, rfl⟩
    refine mem_flatMap.mpr ⟨n / blockN, mem_range.mpr (div_lt_cdiv pos isCol), ?_⟩
    refine mem_flatMap.mpr ⟨pidK, mem_range.mpr isPart, ?_⟩
    refine mem_flatMap.mpr ⟨n % blockN, mem_range.mpr (Nat.mod_lt _ pos), ?_⟩
    rw [Nat.div_add_mod', if_pos isCol]
    exact mem_cons_self
  · obtain ⟨pidN, -, mem⟩ := mem_flatMap.mp mem
    obtain ⟨part, -, mem⟩ := mem_flatMap.mp mem
    obtain ⟨j, -, mem⟩ := mem_flatMap.mp mem
    dsimp only at mem
    split at mem
    · obtain rfl := mem_singleton.mp mem
      obtain ⟨rfl, rfl⟩ := Prod.mk.inj here
      rfl
    · cases mem

theorem reduceStores_get {n : Nat} (isCol : n < N) (memory part : Nat × Nat → ℚ) :
    runCopies memory (reduceStores N splitK part) (0, n) =
      ∑ k ∈ Finset.range splitK, part (k, n) := by
  refine (runCopies_of_value ?_ fun copy mem here => ?_).trans (foldl_add_range _ _)
  · refine mem_map.mpr ⟨⟨(0, n), .value
      ((range splitK).foldl (fun acc k => acc + part (k, n)) 0)⟩, ?_, rfl⟩
    refine mem_flatMap.mpr ⟨n / 256, mem_range.mpr (div_lt_cdiv (by decide) isCol), ?_⟩
    refine mem_flatMap.mpr ⟨n % 256, mem_range.mpr (Nat.mod_lt _ (by decide)), ?_⟩
    rw [Nat.div_add_mod', if_pos isCol]
    exact mem_cons_self
  · obtain ⟨pid, -, mem⟩ := mem_flatMap.mp mem
    obtain ⟨j, -, mem⟩ := mem_flatMap.mp mem
    dsimp only at mem
    split at mem
    · obtain rfl := mem_singleton.mp mem
      obtain ⟨-, rfl⟩ := Prod.mk.inj here
      rfl
    · cases mem

theorem gemv_sum (chosen : decodeCfg N K = some (blockN, splitK)) :
    ∃ out, fp8ActGemv op K N = some out ∧ ∀ n, n < N →
      out (0, n) = ∑ pidK ∈ Finset.range splitK, gemvAcc op K splitK pidK n := by
  have pos := (decodeCfg_some chosen).1
  refine ⟨runCopies op.empty (reduceStores N splitK
    (runCopies op.empty (gemvStores op K N blockN splitK))), ?_, fun n isCol => ?_⟩
  · unfold fp8ActGemv
    rw [chosen]
    rfl
  · rw [reduceStores_get isCol]
    refine Finset.sum_congr rfl fun pidK mem => ?_
    exact gemvStores_get op pos (Finset.mem_range.mp mem) isCol _

theorem parts_sum {m n blocks : Nat} (whole : K = 128 * (splitK * blocks)) (some_ : 0 < splitK) :
    ∑ pidK ∈ Finset.range splitK, gemvAcc (op.row K m) K splitK pidK n = blockSum op K m n := by
  have kPer : K / splitK = 128 * blocks := by
    rw [whole, Nat.mul_left_comm, Nat.mul_div_cancel_left _ some_]
  have count : K / 128 = splitK * blocks := by rw [whole, Nat.mul_div_cancel_left _ (by decide)]
  unfold blockSum
  rw [count, ← sum_parts]
  refine Finset.sum_congr rfl fun pidK _ => ?_
  rw [gemvAcc_sum, kPer, cdiv_mul (by decide)]
  refine Finset.sum_congr rfl fun step _ => ?_
  have start : pidK * (128 * blocks) + step * 128 = 128 * (pidK * blocks + step) := by ring
  have col : 128 * (pidK * blocks + step) / 128 = pidK * blocks + step :=
    Nat.mul_div_cancel_left _ (by decide)
  rw [start, col, mul_right_comm]
  congr 2
  exact Finset.sum_congr rfl fun i _ => mul_comm _ _

end Gemv

/-! ### Operands that are one everywhere -/

def ones : Fp8Operands where
  a _ := 0x38#8
  sa _ := 127#8
  w _ := 0x38#8
  sb _ := 127#8
  strideWn := 0
  strideWk := 0

theorem ones_blockSum (m n : Nat) : blockSum ones K m n = (128 * (K / 128) : ℕ) := by
  unfold blockSum block ones
  simp only [e4m3ToF32_one, e8m0_one, mul_one, Finset.sum_const, Finset.card_range, nsmul_eq_mul]
  push_cast
  exact mul_comm _ _

theorem ones_parts (n : Nat) : ∑ pidK ∈ Finset.range splitK, gemvAcc ones K splitK pidK n =
    (128 * (splitK * cdiv (K / splitK) 128) : ℕ) := by
  simp only [gemvAcc_sum, ones, e4m3ToF32_one, e8m0_one, mul_one, Finset.sum_const,
    Finset.card_range, nsmul_eq_mul]
  push_cast
  ring

section Layer

variable (wholeN : N % 128 = 0) (wholeK : K % 128 = 0)

include wholeN wholeK

theorem blockFp8Linear_one : blockFp8Linear op K 1 N =
    (fp8ActGemv op K N).map fun out cell => out cell + biasAt op cell.2 := by
  unfold blockFp8Linear
  rw [if_pos rfl, guard, if_pos ⟨wholeK, wholeN⟩]
  cases fp8ActGemv op K N <;> rfl

theorem blockFp8Linear_more {M : Nat} (more : M ≠ 1) : blockFp8Linear op K M N =
    some fun cell => runCopies op.empty (gemmStores op K M N) cell + biasAt op cell.2 := by
  unfold blockFp8Linear
  rw [if_neg more, guard, if_pos ⟨wholeK, wholeN⟩]
  rfl

theorem dvd_of_exact (exactly : DecodeExact N K) : ∃ blockN splitK,
    decodeCfg N K = some (blockN, splitK) ∧ splitK ∣ K / 128 := by
  obtain ⟨one, all, isOne, -, same⟩ := exactly ones 2 0 le_rfl Nat.two_pos
  rw [blockFp8Linear_one _ wholeN wholeK] at isOne
  obtain ⟨out, isOut, rfl⟩ := Option.map_eq_some_iff.mp isOne
  cases chosen : decodeCfg N K with
  | none =>
    unfold fp8ActGemv at isOut
    rw [chosen] at isOut
    cases isOut
  | some cfg =>
    obtain ⟨blockN, splitK⟩ := cfg
    obtain ⟨-, -, some_⟩ := decodeCfg_some chosen
    obtain ⟨sums, isSums, each⟩ := gemv_sum (row ones K 0) chosen
    obtain rfl := Option.some.inj (isOut.symm.trans isSums)
    obtain ⟨equal, sum⟩ := same 0 some_
    have parts := (each 0 some_).trans (ones_parts 0)
    have total := equal.trans sum
    dsimp only at total
    rw [parts, ones_blockSum] at total
    have counts : 128 * (splitK * cdiv (K / splitK) 128) = 128 * (K / 128) :=
      Nat.cast_injective (R := ℚ) (add_right_cancel total)
    exact ⟨blockN, splitK, rfl, _, (Nat.eq_of_mul_eq_mul_left (by decide) counts).symm⟩

end Layer

end Fp8Operands

/-- **The decode path** agrees with the GEMM, for all operands and in every column, exactly when the
parts are whole blocks. -/
theorem decode_exact_iff (N K : Nat) (wholeN : N % 128 = 0) (wholeK : K % 128 = 0) :
    DecodeExact N K ↔ ∃ blockN splitK,
      Fp8Operands.decodeCfg N K = some (blockN, splitK) ∧ splitK ∣ K / 128 := by
  refine ⟨Fp8Operands.dvd_of_exact wholeN wholeK, ?_⟩
  rintro ⟨blockN, splitK, chosen, blocks, count⟩ op M m more isRow
  have whole : K = 128 * (splitK * blocks) := by omega
  obtain ⟨out, isOut, each⟩ := Fp8Operands.gemv_sum (op.row K m) chosen
  have isOne := Fp8Operands.blockFp8Linear_one (op.row K m) wholeN wholeK
  rw [isOut, Option.map_some] at isOne
  have isAll := Fp8Operands.blockFp8Linear_more op wholeN wholeK (show M ≠ 1 by omega)
  refine ⟨_, _, isOne, isAll, fun n isCol => ?_⟩
  have sum := Fp8Operands.parts_sum op (m := m) (n := n) whole
    (Fp8Operands.decodeCfg_some chosen).2.1
  have tile := Fp8Operands.gemm_exact op whole isRow isCol op.empty
  constructor
  · rw [each n isCol, sum, tile]
    rfl
  · rw [tile]

theorem decode_exact_iff_swept : DecodeExact 512 4096 ↔ ∃ blockN splitK,
    Fp8Operands.decodeCfg 512 4096 = some (blockN, splitK) ∧ splitK ∣ 4096 / 128 :=
  decode_exact_iff 512 4096 (by decide) (by decide)

namespace Fp8Operands

def spike : Fp8Operands where
  a _ := 0x38#8
  sa _ := 127#8
  w i := if i = 200 then 0x38#8 else 0#8
  sb _ := 127#8
  strideWn := 384
  strideWk := 1

theorem spike_dot (start : Nat) : ∑ i ∈ Finset.range 128, e4m3ToF32 (spike.w (start + i)) =
      if start ≤ 200 ∧ 200 < start + 128 then 1 else 0 := by
  have each : ∀ i, e4m3ToF32 (spike.w (start + i)) = if start + i = 200 then 1 else 0 := by
    intro i
    unfold spike
    dsimp only
    split
    · exact e4m3ToF32_one
    · exact e4m3ToF32_zero
  simp only [each]
  by_cases inside : start ≤ 200 ∧ 200 < start + 128
  · rw [if_pos inside, Finset.sum_eq_single (200 - start)]
    · exact if_pos (by omega)
    · intro i _ other
      exact if_neg (by omega)
    · intro outside
      exact absurd (Finset.mem_range.mpr (by omega)) outside
  · rw [if_neg inside]
    refine Finset.sum_eq_zero fun i mem => if_neg ?_
    have within := Finset.mem_range.mp mem
    omega

theorem spike_part (pidK : Nat) : (spike.row 384 0).gemvAcc 384 2 pidK 0 =
    (if pidK * 192 ≤ 200 ∧ 200 < pidK * 192 + 128 then 1 else 0) +
      if pidK * 192 + 128 ≤ 200 ∧ 200 < pidK * 192 + 128 + 128 then 1 else 0 := by
  have steps : cdiv (384 / 2) 128 = 2 := rfl
  rw [gemvAcc_sum, steps, Finset.sum_range_succ, Finset.sum_range_one, ← spike_dot, ← spike_dot]
  simp [row, spike]

theorem spike_blockSum : spike.blockSum 384 0 0 = 1 := by
  have blocks : 384 / 128 = 3 := rfl
  have first := spike_dot 0
  have second := spike_dot 128
  have third := spike_dot 256
  unfold blockSum block
  rw [blocks, Finset.sum_range_succ, Finset.sum_range_succ, Finset.sum_range_one]
  simp [spike] at first second third ⊢
  rw [first, second, third]
  norm_num

end Fp8Operands

/-- Three blocks in two parts: column 200 is in both. -/
theorem decode_counts_twice : ∃ one all,
    (Fp8Operands.spike.row 384 0).blockFp8Linear 384 1 8192 = some one ∧
      Fp8Operands.spike.blockFp8Linear 384 2 8192 = some all ∧ one (0, 0) = 2 ∧ all (0, 0) = 1 := by
  have chosen : Fp8Operands.decodeCfg 8192 384 = some (16, 2) := by decide
  obtain ⟨out, isOut, each⟩ := Fp8Operands.gemv_sum (Fp8Operands.spike.row 384 0) chosen
  have isOne := @Fp8Operands.blockFp8Linear_one (Fp8Operands.spike.row 384 0) 8192 384 rfl rfl
  rw [isOut, Option.map_some] at isOne
  have isAll := @Fp8Operands.blockFp8Linear_more Fp8Operands.spike 8192 384 rfl rfl 2 (by decide)
  refine ⟨_, _, isOne, isAll, ?_, ?_⟩
  · show out (0, 0) + 0 = 2
    rw [each 0 (by decide), Finset.sum_range_succ, Finset.sum_range_one,
      Fp8Operands.spike_part, Fp8Operands.spike_part]
    norm_num
  · have tile := Fp8Operands.gemm_exact Fp8Operands.spike (show 384 = 128 * 3 from rfl)
      (show 0 < 2 from Nat.two_pos) (show 0 < 8192 by decide) Fp8Operands.spike.empty
    show runCopies _ _ (0, 0) + 0 = (1 : ℚ)
    rw [tile, Fp8Operands.spike_blockSum, add_zero]

end FreeToken
