/-
**The sums of the NVFP4 kernels.**
-/

import FreeToken.Kernel.Nvfp4Codes
import FreeToken.Lib.PartSums
import Mathlib.Algebra.BigOperators.Field

namespace FreeToken.Nvfp4

open List Finset

open scoped BigOperators

variable (op : Operands)

/-! ### Words -/

theorem kWords_eq : op.kWords = op.packed.cols := by
  exact Nat.mul_div_cancel _ (by decide)

theorem K_eq : op.K = op.kWords * 8 := by
  rw [kWords_eq]
  rfl

/-- What word `w` of column `n` adds to row `m`. -/
def wordTerm (m n w : Nat) : ℚ :=
  wordSum (fun i => op.x (m * op.K + i)) w (op.packed.entry n w) *
    scaleF32 op.native (op.scale.entry n (w / 2))

theorem exact_eq (m n : Nat) :
    exact op m n = (∑ w ∈ Finset.range op.kWords, wordTerm op m n w) * op.gscale n := by
  unfold exact
  rw [K_eq, ← sum_parts]
  refine congrArg (· * op.gscale n) (sum_congr rfl fun w _ => ?_)
  unfold wordTerm wordSum
  rw [sum_mul]
  refine sum_congr rfl fun j mem => ?_
  have small := Finset.mem_range.mp mem
  have word : (w * 8 + j) / 8 = w := by omega
  have place : (w * 8 + j) % 8 = j := by omega
  have block : (w * 8 + j) / 16 = w / 2 := by omega
  unfold codeAt
  rw [word, place, block, mul_comm w 8, K_eq]

theorem e2m1_zero : e2m1 0#4 = 0 := by decide +kernel

theorem wordSum_zero (aVec : Nat → ℚ) (w : Nat) : wordSum aVec w 0#32 = 0 := by
  apply Finset.sum_eq_zero
  intro j _
  rw [BitVec.extractLsb'_zero, e2m1_zero, mul_zero]

theorem wordSum_congr {a b : Nat → ℚ} {v w : Nat} {word : BitVec 32}
    (same : ∀ j < 8, a (8 * v + j) = b (8 * w + j)) : wordSum a v word = wordSum b w word :=
  sum_congr rfl fun j mem => by rw [same j (Finset.mem_range.mp mem)]

/-! ### Loads without a mask -/

/-- A loop whose loads have no mask reads only words that are there. -/
def Unmasked (evenK : Bool) (blockKw tileStart tiles : Nat) : Prop :=
  evenK = true → ∀ t < tiles, ∀ w < blockKw, (tileStart + t) * blockKw + w < op.kWords

section Unmasked

variable {op}

theorem whole_tiles {blockKw : Nat} (pos : 0 < blockKw) (whole : op.K % (blockKw * 8) = 0) :
    op.kWords = numTiles op blockKw * blockKw := by
  obtain ⟨tiles, isK⟩ := Nat.dvd_of_mod_eq_zero whole
  have words : op.kWords = blockKw * tiles := by
    have isWords := K_eq op
    rw [isK, mul_right_comm] at isWords
    omega
  unfold numTiles
  rw [words, cdiv_mul pos, mul_comm]

theorem tile_inside {blockKw tile w tiles : Nat} (isTile : tile < tiles) (isLane : w < blockKw) :
    tile * blockKw + w < tiles * blockKw := by
  have upTo := Nat.mul_le_mul_right blockKw (show tile + 1 ≤ tiles from isTile)
  rw [Nat.succ_mul] at upTo
  omega

theorem single_unmasked {blockKw : Nat} (pos : 0 < blockKw) :
    Unmasked op (op.K % (blockKw * 8) = 0) blockKw 0 (cdiv op.kWords blockKw) := by
  intro even t isTile w isLane
  have whole := whole_tiles pos (of_decide_eq_true even)
  rw [whole, zero_add]
  exact tile_inside isTile isLane

theorem split_unmasked {blockKw splitK pidK : Nat} (pos : 0 < blockKw) (isPart : pidK < splitK) :
    Unmasked op (evenSplit op blockKw splitK) blockKw
      (pidK * cdiv (numTiles op blockKw) splitK) (cdiv (numTiles op blockKw) splitK) := by
  intro even t isTile w isLane
  obtain ⟨whole, tiled⟩ := of_decide_eq_true even
  obtain ⟨tilesPer, isTiles⟩ : ∃ tilesPer, tilesPer = cdiv (numTiles op blockKw) splitK := ⟨_, rfl⟩
  rw [← isTiles] at isTile tiled ⊢
  have lt := tile_inside isPart isTile
  rw [mul_comm splitK, ← tiled] at lt
  rw [whole_tiles pos whole]
  exact tile_inside lt isLane

end Unmasked

/-! ### The GEMV -/

variable {evenK : Bool}

section Gemv

variable {op}

theorem gemvTile_eq {blockKw tile w : Nat} (n : Nat) (sums : Nat → ℚ)
    (lt : evenK = true → tile * blockKw + w < op.kWords) :
    gemvTile op evenK blockKw n sums tile w = sums w +
      if tile * blockKw + w < op.kWords then wordTerm op 0 n (tile * blockKw + w) else 0 := by
  have isK := K_eq op
  unfold gemvTile
  dsimp only
  rw [accWord_eq]
  refine congrArg (sums w + ·) ?_
  by_cases isWord : tile * blockKw + w < op.kWords
  · rw [if_pos (Or.inr isWord), if_pos (Or.inr isWord), if_pos isWord]
    have same : wordSum (fun i => if evenK = true ∨ tile * blockKw * 8 + i < op.K then
        op.x (tile * blockKw * 8 + i) else 0) w (op.packed.entry n (tile * blockKw + w)) =
        wordSum (fun i => op.x (0 * op.K + i)) (tile * blockKw + w)
          (op.packed.entry n (tile * blockKw + w)) := by
      apply wordSum_congr
      intro j small
      rw [if_pos (Or.inr (by omega)), Nat.zero_mul]
      exact congrArg op.x (by omega)
    rw [same]
    unfold wordTerm
    ring
  · have masked : ¬ (evenK = true ∨ tile * blockKw + w < op.kWords) := by
      rintro (even | isInside)
      · exact isWord (lt even)
      · exact isWord isInside
    rw [if_neg masked, if_neg isWord, show (0 : BitVec 32) = 0#32 from rfl, wordSum_zero, zero_div,
      zero_mul]

theorem gemvAcc_eq {blockKw tileStart tiles : Nat} (n : Nat)
    (unmasked : Unmasked op evenK blockKw tileStart tiles) :
    gemvAcc op evenK blockKw tileStart tiles n = ∑ i ∈ Finset.range (tiles * blockKw),
      if tileStart * blockKw + i < op.kWords then wordTerm op 0 n (tileStart * blockKw + i) else 0 := by
  rw [← sum_parts, sum_comm]
  refine sum_congr rfl fun w mem => ?_
  apply foldl_add_lane
  intro sums t isTile
  rw [gemvTile_eq n sums fun even => unmasked even t isTile w (Finset.mem_range.mp mem),
    add_mul, add_assoc]

end Gemv

/-! ### The GEMM -/

section Gemm

variable {op}

theorem dots_eq (a : Split8) (row : Nat → Nat) (word : Nat → BitVec 32) (s : Nat → ℚ) (acc : ℚ) :
    dot (fun w => (pair ((word w).sshiftRight 12)).2 * s w) (fun w => a.a7 (row w))
      (dot (fun w => (pair ((word w).sshiftRight 12)).1 * s w) (fun w => a.a3 (row w))
      (dot (fun w => (pair ((word w).sshiftRight 8)).2 * s w) (fun w => a.a6 (row w))
      (dot (fun w => (pair ((word w).sshiftRight 8)).1 * s w) (fun w => a.a2 (row w))
      (dot (fun w => (pair ((word w).sshiftRight 4)).2 * s w) (fun w => a.a5 (row w))
      (dot (fun w => (pair ((word w).sshiftRight 4)).1 * s w) (fun w => a.a1 (row w))
      (dot (fun w => (pair ((word w).sshiftRight 0)).2 * s w) (fun w => a.a4 (row w))
      (dot (fun w => (pair ((word w).sshiftRight 0)).1 * s w) (fun w => a.a0 (row w)) acc))))))) =
      acc + ∑ w ∈ Finset.range gemmBlockKw, accWord a (row w) (word w) * s w := by
  unfold dot accWord
  simp only [BitVec.sshiftRight_zero, zero_add, add_assoc, ← sum_add_distrib]
  refine congrArg (acc + ·) (sum_congr rfl fun w _ => ?_)
  ring

theorem gemmTile_eq {M blockM pidM r tile0 t : Nat} (n : Nat) (acc : ℚ)
    (isRow : pidM * blockM + r < M)
    (lt : evenK = true → ∀ w < gemmBlockKw, (tile0 + t) * gemmBlockKw + w < op.kWords) :
    gemmTile op evenK M blockM pidM r n tile0 acc t = acc + (∑ w ∈ Finset.range gemmBlockKw,
      if (tile0 + t) * gemmBlockKw + w < op.kWords then
        wordTerm op (pidM * blockM + r) n ((tile0 + t) * gemmBlockKw + w) else 0) / 128 := by
  have isK := K_eq op
  unfold gemmTile
  rw [dots_eq, sum_div]
  refine congrArg (acc + ·) (sum_congr rfl fun w mem => ?_)
  have small : w < 16 := Finset.mem_range.mp mem
  have isWord : tile0 * gemmBlockKw + w + t * gemmBlockKw = (tile0 + t) * gemmBlockKw + w := by
    rw [add_mul]
    omega
  have isBlock : (tile0 * gemmBlockKw + w) / 2 + t * (gemmBlockKw / 2) =
      ((tile0 + t) * gemmBlockKw + w) / 2 := by
    unfold gemmBlockKw
    omega
  rw [accWord_eq, isWord, isBlock, scaleX128_eq]
  by_cases isInside : (tile0 + t) * gemmBlockKw + w < op.kWords
  · rw [if_pos (Or.inr isInside), if_pos (Or.inr isInside), if_pos isInside]
    unfold wordTerm
    rw [wordSum_congr fun j isPlace => ?_]
    · ring
    · have row : (8 * (r * gemmBlockKw + w) + j) / (gemmBlockKw * 8) = r := by
        unfold gemmBlockKw
        omega
      have place : (8 * (r * gemmBlockKw + w) + j) % (gemmBlockKw * 8) = 8 * w + j := by
        unfold gemmBlockKw
        omega
      rw [row, place, if_pos ⟨isRow, Or.inr (by omega)⟩]
      exact congrArg op.x (by unfold gemmBlockKw; omega)
  · have masked : ¬ (evenK = true ∨ (tile0 + t) * gemmBlockKw + w < op.kWords) := by
      rintro (even | isWord)
      · exact isInside (lt even w small)
      · exact isInside isWord
    rw [if_neg masked, if_neg isInside, show (0 : BitVec 32) = 0#32 from rfl, wordSum_zero, zero_div,
      zero_mul, zero_div]

theorem gemmAcc_eq {M blockM pidM r tile0 tiles : Nat} (n : Nat)
    (isRow : pidM * blockM + r < M) (unmasked : Unmasked op evenK gemmBlockKw tile0 tiles) :
    gemmAcc op evenK M blockM pidM r n tile0 tiles =
      (∑ i ∈ Finset.range (tiles * gemmBlockKw), if tile0 * gemmBlockKw + i < op.kWords then
        wordTerm op (pidM * blockM + r) n (tile0 * gemmBlockKw + i) else 0) / 128 := by
  rw [← sum_parts, sum_div]
  unfold gemmAcc
  have adds : ∀ count ≤ tiles, (List.range count).foldl
      (gemmTile op evenK M blockM pidM r n tile0) 0 = ∑ t ∈ Finset.range count,
        (∑ w ∈ Finset.range gemmBlockKw, if (tile0 + t) * gemmBlockKw + w < op.kWords then
          wordTerm op (pidM * blockM + r) n ((tile0 + t) * gemmBlockKw + w) else 0) / 128 := by
    intro count
    induction count with
    | zero => exact fun _ => rfl
    | succ count ih =>
      intro few
      rw [range_succ, foldl_append, foldl_cons, foldl_nil, ih (by omega), Finset.sum_range_succ]
      exact gemmTile_eq n _ isRow fun even => unmasked even count (by omega)
  rw [adds tiles le_rfl]
  refine sum_congr rfl fun t _ => congrArg (· / 128) (sum_congr rfl fun w _ => ?_)
  rw [add_mul, add_assoc]

end Gemm

/-! ### All words -/

section Whole

variable {op}

theorem single_sum {blockKw : Nat} (pos : 0 < blockKw) (term : Nat → ℚ) :
    (∑ i ∈ Finset.range (cdiv op.kWords blockKw * blockKw),
      if 0 * blockKw + i < op.kWords then term (0 * blockKw + i) else 0) =
      ∑ w ∈ Finset.range op.kWords, term w := by
  simp only [Nat.zero_mul, zero_add]
  exact sum_masked term (le_cdiv_mul _ pos)

theorem split_sum {blockKw splitK : Nat} (pos : 0 < blockKw) (some_ : 0 < splitK) (term : Nat → ℚ) :
    (∑ pidK ∈ Finset.range splitK, ∑ i ∈ Finset.range (cdiv (numTiles op blockKw) splitK * blockKw),
      if pidK * cdiv (numTiles op blockKw) splitK * blockKw + i < op.kWords then
        term (pidK * cdiv (numTiles op blockKw) splitK * blockKw + i) else 0) =
      ∑ w ∈ Finset.range op.kWords, term w := by
  have parts := sum_parts (fun i => if i < op.kWords then term i else 0) splitK
    (cdiv (numTiles op blockKw) splitK * blockKw)
  simp only [Nat.mul_assoc]
  rw [parts]
  apply sum_masked
  calc op.kWords ≤ numTiles op blockKw * blockKw := le_cdiv_mul _ pos
    _ ≤ cdiv (numTiles op blockKw) splitK * splitK * blockKw :=
        Nat.mul_le_mul_right _ (le_cdiv_mul _ some_)
    _ = splitK * (cdiv (numTiles op blockKw) splitK * blockKw) := by ring

end Whole

end FreeToken.Nvfp4
