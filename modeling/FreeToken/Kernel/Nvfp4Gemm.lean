/-
**The GEMM over NVFP4 weights.**
-/

import FreeToken.Kernel.Nvfp4Sums

namespace FreeToken.Nvfp4

open List

open scoped BigOperators

/-! ### The number of parts -/

theorem floorPow2_pos (n : Nat) : 0 < floorPow2 n := by
  unfold floorPow2
  rw [Nat.one_shiftLeft]
  exact Nat.two_pow_pos _

theorem growSplit_pos (maxSk numMn minGrid : Nat) (fuel : Nat) {splitK : Nat} (some_ : 0 < splitK) :
    0 < growSplit maxSk numMn minGrid fuel splitK := by
  induction fuel generalizing splitK with
  | zero => exact some_
  | succ fuel ih =>
    unfold growSplit
    split
    · exact ih (mul_pos some_ two_pos)
    · exact some_

theorem pickSplitKBm16_pos (nearWave : Nat → Nat → Bool) (numMn tiles wave : Nat) :
    0 < pickSplitKBm16 nearWave numMn tiles wave := by
  unfold pickSplitKBm16
  dsimp only
  obtain ⟨maxSk, isMax⟩ : ∃ maxSk, maxSk = if tiles ≤ 16 then tiles else max (tiles / 3) 1 :=
    ⟨_, rfl⟩
  rw [← isMax]
  have grown := @growSplit_pos maxSk numMn (wave - wave / 32) maxSk 1 one_pos
  split
  · exact mul_pos grown two_pos
  · exact grown

theorem shrinkEven_pos (tiles fuel : Nat) {evenK : Nat} (some_ : 0 < evenK) :
    0 < shrinkEven tiles fuel evenK := by
  induction fuel generalizing evenK with
  | zero => exact some_
  | succ fuel ih =>
    unfold shrinkEven
    split
    · exact ih (by omega)
    · exact some_

variable (op : Operands)

/-- The heuristics give at least one part. -/
theorem gemmSplitK_pos (nearWave : Nat → Nat → Bool) (wave M : Nat) :
    0 < gemmSplitK op nearWave wave M := by
  unfold gemmSplitK
  dsimp only
  split
  · exact pickSplitKBm16_pos _ _ _ _
  · split
    · exact shrinkEven_pos _ _ (floorPow2_pos _)
    · exact floorPow2_pos _

/-! ### The stores -/

section Stores

variable {op} {M blockM splitK pidK m n : Nat}

/-- What a part of an output comes to: the deferred power of two is restored at the end. -/
def partSum (op : Operands) (splitK pidK m n : Nat) : ℚ :=
  (∑ i ∈ Finset.range (cdiv (numTiles op gemmBlockKw) splitK * gemmBlockKw),
    if pidK * cdiv (numTiles op gemmBlockKw) splitK * gemmBlockKw + i < op.kWords then
      wordTerm op m n (pidK * cdiv (numTiles op gemmBlockKw) splitK * gemmBlockKw + i) else 0) / 128

theorem partSum_total (some_ : 0 < splitK) :
    (∑ pidK ∈ Finset.range splitK, partSum op splitK pidK m n) * (op.gscale n * 128) =
      exact op m n := by
  unfold partSum
  rw [← Finset.sum_div, split_sum (by decide) some_, exact_eq]
  ring

/-- What the kernel stores. -/
theorem gemmStores_get (pos : 0 < blockM) (isPart : pidK < splitK) (isRow : m < M)
    (isCol : n < op.N) (memory : Nat × Nat × Nat → ℚ) :
    runCopies memory (gemmStores op M blockM splitK) (pidK, m, n) =
      if splitK = 1 then partSum op splitK pidK m n * (op.gscale n * 128)
      else partSum op splitK pidK m n := by
  have acc : ∀ {pidK pidM r : Nat} (n : Nat), pidK < splitK → pidM * blockM + r < M →
      gemmAcc op (evenSplit op gemmBlockKw splitK) M blockM pidM r n
        (pidK * cdiv (numTiles op gemmBlockKw) splitK) (cdiv (numTiles op gemmBlockKw) splitK) =
        partSum op splitK pidK (pidM * blockM + r) n := fun n isPart isRow =>
    gemmAcc_eq n isRow (split_unmasked (by decide) isPart)
  have tileN := div_lt_cdiv (show 0 < gemmBlockN by decide) isCol
  have tileM := div_lt_cdiv pos isRow
  have here := Nat.div_add_mod' m blockM
  apply runCopies_of_value
  · refine mem_map.mpr ⟨⟨(pidK, m, n), .value (if splitK = 1 then
      partSum op splitK pidK m n * (op.gscale n * 128) else partSum op splitK pidK m n)⟩, ?_, rfl⟩
    refine mem_flatMap.mpr ⟨m / blockM * cdiv op.N gemmBlockN + n / gemmBlockN,
      mem_range.mpr (tile_inside tileM tileN), ?_⟩
    refine mem_flatMap.mpr ⟨pidK, mem_range.mpr isPart, ?_⟩
    dsimp only
    rw [mul_comm (m / blockM), Nat.mul_add_div (Nat.zero_lt_of_lt tileN),
      Nat.div_eq_of_lt tileN, add_zero, Nat.mul_add_mod, Nat.mod_eq_of_lt tileN]
    refine mem_flatMap.mpr ⟨m % blockM, mem_range.mpr (Nat.mod_lt _ pos), ?_⟩
    refine mem_flatMap.mpr ⟨n % gemmBlockN, mem_range.mpr (Nat.mod_lt _ (by decide)), ?_⟩
    rw [Nat.div_add_mod' n, acc n isPart (by omega), here, if_pos ⟨isRow, isCol⟩]
    exact mem_cons_self
  · intro copy mem isCell
    obtain ⟨pidMn, -, mem⟩ := mem_flatMap.mp mem
    obtain ⟨part, isIn, mem⟩ := mem_flatMap.mp mem
    obtain ⟨r, -, mem⟩ := mem_flatMap.mp mem
    obtain ⟨j, -, mem⟩ := mem_flatMap.mp mem
    dsimp only at mem
    split at mem
    · rename_i lt
      obtain rfl := mem_singleton.mp mem
      obtain ⟨rfl, cell⟩ := Prod.mk.inj isCell
      obtain ⟨rfl, rfl⟩ := Prod.mk.inj cell
      exact congrArg Source.value (by rw [acc _ isPart lt.1])
    · cases mem

/-- What its reduction stores. -/
theorem gemmReduceStores_get {block : Nat} (pos : 0 < block) (isRow : m < M)
    (isCol : n < op.N) (memory part : Nat × Nat × Nat → ℚ) :
    runCopies memory (gemmReduceStores op M splitK block part) (0, m, n) =
      (∑ k ∈ Finset.range splitK, part (k, m, n)) * (op.gscale n * 128) := by
  rw [← foldl_add_range]
  apply runCopies_of_value
  · refine mem_map.mpr ⟨⟨(0, m, n), .value ((range splitK).foldl
      (fun acc k => acc + part (k, m, n)) 0 * (op.gscale n * 128))⟩, ?_, rfl⟩
    refine mem_flatMap.mpr ⟨m, mem_range.mpr isRow, ?_⟩
    refine mem_flatMap.mpr ⟨n / block, mem_range.mpr (div_lt_cdiv pos isCol), ?_⟩
    refine mem_flatMap.mpr ⟨n % block, mem_range.mpr (Nat.mod_lt _ pos), ?_⟩
    rw [Nat.div_add_mod', if_pos isCol]
    exact mem_cons_self
  · intro copy mem isCell
    obtain ⟨pidM, -, mem⟩ := mem_flatMap.mp mem
    obtain ⟨pid, -, mem⟩ := mem_flatMap.mp mem
    obtain ⟨j, -, mem⟩ := mem_flatMap.mp mem
    dsimp only at mem
    split at mem
    · obtain rfl := mem_singleton.mp mem
      obtain ⟨-, cell⟩ := Prod.mk.inj isCell
      obtain ⟨rfl, rfl⟩ := Prod.mk.inj cell
      rfl
    · cases mem

end Stores

/-- The output, for any number of rows and on any device. -/
theorem gemmInkernel_exact (nearWave : Nat → Nat → Bool) (wave : Nat) {M m n : Nat} (isRow : m < M)
    (isCol : n < op.N) (empty part : Nat × Nat × Nat → ℚ) :
    gemmInkernel op nearWave wave M empty part (m, n) = exact op m n := by
  have some_ := gemmSplitK_pos op nearWave wave M
  have rows : 0 < gemmBlockM M := by
    unfold gemmBlockM
    split
    · decide
    · split <;> decide
  unfold gemmInkernel
  split
  · rename_i one
    rw [gemmStores_get rows some_ isRow isCol, if_pos one, ← partSum_total some_, one,
      Finset.sum_range_one]
  · rename_i parts
    rw [gemmReduceStores_get (by split <;> decide) isRow isCol, ← partSum_total some_]
    refine congrArg (· * (op.gscale n * 128)) (Finset.sum_congr rfl fun pidK mem => ?_)
    rw [gemmStores_get rows (Finset.mem_range.mp mem) isRow isCol, if_neg parts]

end FreeToken.Nvfp4
