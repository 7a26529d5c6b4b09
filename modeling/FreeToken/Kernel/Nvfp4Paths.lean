/-
**All paths of the NVFP4 linear layer.**
-/

import FreeToken.Kernel.Nvfp4Gemv

namespace FreeToken.Nvfp4

open List

open scoped BigOperators

variable (op : Operands)

/-! ### The decoded weight -/

def weightAt (n k : Nat) : ℚ :=
  e2m1 (codeAt op n k) * scaleF32 op.native (op.scale.entry n (k / 16)) * op.gscale n

variable (transp : Bool)

section Dequant

variable {op} {n k : Nat}

theorem dequantValue_weight {i : Nat} (lt : i < 8) (n kw : Nat) :
    dequantValue op (op.packed.entry n kw) (op.scale.entry n (kw / 2)) (op.gscale n) i =
      weightAt op n (kw * 8 + i) := by
  have word : (kw * 8 + i) / 8 = kw := by omega
  have place : (kw * 8 + i) % 8 = i := by omega
  have block : (kw * 8 + i) / 16 = kw / 2 := by omega
  unfold weightAt codeAt
  rw [dequantValue_eq op _ _ _ lt, word, place, block]

theorem dequantRowsStores_get (isCol : n < op.N) (lt : k < op.K) (buffer : Nat × Nat → ℚ) :
    runCopies buffer (dequantRowsStores op) (n, k) = weightAt op n k := by
  have isWord : k / 8 < op.packed.cols := by
    unfold Operands.K at lt
    omega
  have small : k % 8 < 8 := Nat.mod_lt _ (by decide)
  apply runCopies_of_value
  · refine mem_map.mpr ⟨⟨(n, k), .value (weightAt op n k)⟩, ?_, rfl⟩
    refine mem_flatMap.mpr ⟨n, mem_range.mpr isCol, ?_⟩
    refine mem_flatMap.mpr ⟨k / 8 / 128, mem_range.mpr (div_lt_cdiv (by decide) isWord), ?_⟩
    refine mem_flatMap.mpr ⟨k / 8 % 128, mem_range.mpr (Nat.mod_lt _ (by decide)), ?_⟩
    refine mem_flatMap.mpr ⟨k % 8, mem_range.mpr small, ?_⟩
    rw [Nat.div_add_mod', if_pos isWord, dequantValue_weight small, Nat.div_add_mod']
    exact mem_cons_self
  · intro copy mem isCell
    obtain ⟨pidN, -, mem⟩ := mem_flatMap.mp mem
    obtain ⟨pidK, -, mem⟩ := mem_flatMap.mp mem
    obtain ⟨w, -, mem⟩ := mem_flatMap.mp mem
    obtain ⟨i, isPlace, mem⟩ := mem_flatMap.mp mem
    dsimp only at mem
    split at mem
    · obtain rfl := mem_singleton.mp mem
      obtain ⟨rfl, rfl⟩ := Prod.mk.inj isCell
      exact congrArg Source.value (dequantValue_weight (mem_range.mp isPlace) _ _)
    · cases mem

theorem dequantColsStores_get (isCol : n < op.N) (lt : k < op.K) (buffer : Nat × Nat → ℚ) :
    runCopies buffer (dequantColsStores op) (n, k) = weightAt op n k := by
  unfold Operands.K at lt
  have value : ∀ {n pidK flat : Nat}, n < op.N → pidK * 16 * 8 + flat < op.packed.cols * 8 →
      dequantValue op (if pidK * 16 + flat / 8 < op.packed.cols ∧ n < op.N then
          op.packed.entry n (pidK * 16 + flat / 8) else 0)
        (if pidK * 16 + flat / 8 < op.packed.cols ∧ n < op.N then
          op.scale.entry n ((pidK * 16 + flat / 8) / 2) else 0)
        (if n < op.N then op.gscale n else 0) (flat % 8) = weightAt op n (pidK * 16 * 8 + flat) := by
    intro n pidK flat isCol lt
    have isWord : pidK * 16 + flat / 8 < op.packed.cols ∧ n < op.N := ⟨by omega, isCol⟩
    have place : (pidK * 16 + flat / 8) * 8 + flat % 8 = pidK * 16 * 8 + flat := by omega
    rw [if_pos isWord, if_pos isWord, if_pos isCol,
      dequantValue_weight (Nat.mod_lt _ (by decide)), place]
  apply runCopies_of_value
  · refine mem_map.mpr ⟨⟨(n, k), .value (weightAt op n k)⟩, ?_, rfl⟩
    refine mem_flatMap.mpr ⟨k / 128, mem_range.mpr ?_, ?_⟩
    · have isWord : k / 8 < op.packed.cols := by omega
      have tile := div_lt_cdiv (show 0 < 16 by decide) isWord
      omega
    refine mem_flatMap.mpr ⟨n / 64, mem_range.mpr (div_lt_cdiv (by decide) isCol), ?_⟩
    refine mem_flatMap.mpr ⟨n % 64, mem_range.mpr (Nat.mod_lt _ (by decide)), ?_⟩
    refine mem_flatMap.mpr ⟨k % 128, mem_range.mpr (Nat.mod_lt _ (by decide)), ?_⟩
    have here : k / 128 * 16 * 8 + k % 128 = k := by omega
    rw [Nat.div_add_mod', if_pos ⟨isCol, by omega⟩, value isCol (by omega), here]
    exact mem_cons_self
  · intro copy mem isCell
    obtain ⟨pidK, -, mem⟩ := mem_flatMap.mp mem
    obtain ⟨pidN, -, mem⟩ := mem_flatMap.mp mem
    obtain ⟨j, -, mem⟩ := mem_flatMap.mp mem
    obtain ⟨flat, -, mem⟩ := mem_flatMap.mp mem
    dsimp only at mem
    split at mem
    · rename_i stored
      obtain rfl := mem_singleton.mp mem
      obtain ⟨rfl, rfl⟩ := Prod.mk.inj isCell
      exact congrArg Source.value (value stored.1 stored.2)
    · cases mem

/-- Either kernel decodes every value of the weight. -/
theorem dequantRows_get (isCol : n < op.N) (lt : k < op.K)
    (buffer : Nat × Nat → ℚ) : dequantRows op transp buffer (n, k) = weightAt op n k := by
  cases transp with
  | true => exact dequantColsStores_get isCol lt buffer
  | false => exact dequantRowsStores_get isCol lt buffer

theorem matmul_eq (m : Nat) (isCol : n < op.N) (buffer : Nat × Nat → ℚ) :
    matmul op (dequantRows op transp buffer) (m, n) = exact op m n := by
  unfold matmul exact
  rw [Finset.sum_mul]
  refine Finset.sum_congr rfl fun k mem => ?_
  rw [dequantRows_get transp isCol (Finset.mem_range.mp mem)]
  unfold weightAt
  ring

end Dequant

theorem exact_rowsFrom (n0 n1 m i : Nat) : exact (op.rowsFrom n0 n1) m i = exact op m (n0 + i) := by
  unfold exact codeAt Operands.K Operands.rowsFrom
  simp only [View.rowsFrom_entry]
  rfl

theorem gemmScratch_exact (itemsize : Nat) (s : Scratch) (m : Nat) {n : Nat}
    (isCol : n < op.N) : gemmScratch op transp itemsize s (m, n) = exact op m n := by
  unfold gemmScratch
  split
  · exact matmul_eq transp m isCol _
  · have pos : 1 ≤ scratchChunk op itemsize :=
      (show 1 ≤ 256 by decide).trans (Nat.le_max_left _ _)
    refine (strides_tiles op.N pos).fold
      (P := fun start (s : Scratch) => ∀ n < start, s.out (m, n) = exact op m n) ?_ ?_ n isCol
    · intro start next s forward within pre n below
      unfold scratchStep
      dsimp only
      split
      · rename_i lt
        have rows : (op.rowsFrom start next).N = next - start := rfl
        rw [matmul_eq transp m (by omega), exact_rowsFrom, Nat.add_sub_cancel' lt.1]
      · rename_i outside
        exact pre n (by omega)
    · intro n below
      exact absurd below (Nat.not_lt_zero n)

/-! ### The layout -/

structure Shapes : Prop where
  some_ : 0 < op.K
  whole : op.K % 16 = 0
  scaleRows : op.scale.rows = op.N
  scaleCols : op.scale.cols = op.K / 16

section Layout

variable {op}

/-- The layout of the weight makes no difference to an output. -/
theorem exact_transposed (shapes : Shapes op) (words : Nat → BitVec 32) (codes : Nat → BitVec 8)
    (m : Nat) {n : Nat} (isCol : n < op.N) :
    exact (op.transposeResident words codes) m n = exact op m n := by
  have sameK : (op.transposeResident words codes).K = op.K := rfl
  have whole := shapes.whole
  unfold exact
  rw [sameK]
  refine congrArg (· * op.gscale n) (Finset.sum_congr rfl fun k mem => ?_)
  have lt := Finset.mem_range.mp mem
  have isWord : k / 8 < op.packed.cols := by
    unfold Operands.K at lt
    omega
  have isBlock : k / 16 < op.scale.cols := by
    rw [shapes.scaleCols]
    omega
  have isRow : n < op.scale.rows := by
    rw [shapes.scaleRows]
    exact isCol
  unfold codeAt Operands.transposeResident
  rw [View.transposed_entry op.packed words isCol isWord,
    View.transposed_entry op.scale codes isRow isBlock]

end Layout

/-! ### All paths -/

/-- **The outputs of all paths**: the GEMV in one pass, in parts whose programs take their steps in any
order, and as it is launched; the GEMM with the weight decoded in its loop, on any device; and the
product with the decoded weight, chunk by chunk. Wherever a mask is dropped, the words are there. -/
structure Computes (transp : Bool) (sum : Nat → Nat → ℚ) : Prop where
  single : ∀ n < op.N, ∀ memory, runCopies memory (gemvStores op transp) n = sum 0 n
  parts : ∀ splitK memory events, 0 < splitK → SplitLaunch op transp splitK memory events →
    (∀ n < op.N, (events.foldl (gemvSplitStep op transp splitK) memory).out n = sum 0 n) ∧
      ∀ pidN < cdiv op.N (gemvSplitkBlockN transp),
        (events.foldl (gemvSplitStep op transp splitK) memory).counter pidN = 0
  gemv : ∀ memory events, SplitLaunch op transp (gemvSplitK op transp) memory events →
    (∀ n < op.N, (gemv op transp memory events).out n = sum 0 n) ∧
      ∀ pidN < cdiv op.N (gemvSplitkBlockN transp), (gemv op transp memory events).counter pidN = 0
  gemm : ∀ nearWave wave M empty part, ∀ m < M, ∀ n < op.N,
    gemmInkernel op nearWave wave M empty part (m, n) = sum m n
  scratch : ∀ itemsize buffers m, ∀ n < op.N,
    gemmScratch op transp itemsize buffers (m, n) = sum m n
  singleLoads : ∀ blockKw, 0 < blockKw →
    Unmasked op (op.K % (blockKw * 8) = 0) blockKw 0 (cdiv op.kWords blockKw)
  splitLoads : ∀ blockKw splitK pidK, 0 < blockKw → pidK < splitK →
    Unmasked op (evenSplit op blockKw splitK) blockKw
      (pidK * cdiv (numTiles op blockKw) splitK) (cdiv (numTiles op blockKw) splitK)

theorem computes_exact : Computes op transp (exact op) where
  single := fun _ isCol memory => gemvStores_get op transp isCol memory
  parts := fun _ _ _ some_ launch => gemvSplit_exact op some_ launch
  gemv := fun _ _ launch => gemv_exact op transp (fun _ => launch) launch.cleared
  gemm := fun nearWave wave _ empty part _ isRow _ isCol =>
    gemmInkernel_exact op nearWave wave isRow isCol empty part
  scratch := fun itemsize buffers m _ isCol => gemmScratch_exact op transp itemsize buffers m isCol
  singleLoads := fun _ pos => single_unmasked pos
  splitLoads := fun _ _ _ pos isPart => split_unmasked pos isPart

theorem Computes.congr {op : Operands} {transp : Bool} {sum other : Nat → Nat → ℚ}
    (computes : Computes op transp sum) (same : ∀ m, ∀ n < op.N, sum m n = other m n) :
    Computes op transp other where
  single := fun n isCol memory => (computes.single n isCol memory).trans (same 0 n isCol)
  parts := fun splitK memory events some_ launch =>
    ⟨fun n isCol => ((computes.parts splitK memory events some_ launch).1 n isCol).trans
      (same 0 n isCol), (computes.parts splitK memory events some_ launch).2⟩
  gemv := fun memory events launch =>
    ⟨fun n isCol => ((computes.gemv memory events launch).1 n isCol).trans (same 0 n isCol),
      (computes.gemv memory events launch).2⟩
  gemm := fun nearWave wave M empty part m isRow n isCol =>
    (computes.gemm nearWave wave M empty part m isRow n isCol).trans (same m n isCol)
  scratch := fun itemsize buffers m n isCol =>
    (computes.scratch itemsize buffers m n isCol).trans (same m n isCol)
  singleLoads := computes.singleLoads
  splitLoads := computes.splitLoads

/-- **The NVFP4 linear layer is the same on every path**, over the layout of the checkpoint and over the
transposed one. -/
theorem nvfp4_paths_exact (shapes : Shapes op) (words : Nat → BitVec 32) (codes : Nat → BitVec 8) :
    Computes op false (exact op) ∧ Computes (op.transposeResident words codes) true (exact op) :=
  ⟨computes_exact op false, (computes_exact (op.transposeResident words codes) true).congr
    fun m _ isCol => exact_transposed shapes words codes m isCol⟩

def small : Operands where
  x := fun _ => 1
  packed := ⟨fun _ => 0x22222222#32, 0, 1, 2, 2, 1⟩
  scale := ⟨fun _ => 0x38#8, 0, 1, 1, 1, 1⟩
  gscale := fun _ => 1
  native := false

theorem nvfp4_paths_exact_small : Shapes small ∧ Computes small false (exact small) ∧
    Computes (small.transposeResident (fun _ => 0) fun _ => 0) true (exact small) :=
  have shapes : Shapes small := ⟨by decide, by decide, by decide, by decide⟩
  ⟨shapes, nvfp4_paths_exact small shapes (fun _ => 0) fun _ => 0⟩

end FreeToken.Nvfp4
