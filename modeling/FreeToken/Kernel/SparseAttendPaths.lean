/-
**The sparse attention over the reals.**
-/

import Mathlib
import FreeToken.Kernel.PagedAttentionPaths
import FreeToken.Kernel.SparseAttendSplit

namespace FreeToken

/-- `tl.math.exp2`, `tl.math.log2` -/
noncomputable def binaryExp : ExpLog ℝ where
  exp score := (2 : ℝ) ^ score
  log := Real.logb 2
  exp_add := Real.rpow_add two_pos
  exp_pos := Real.rpow_pos_of_pos two_pos
  exp_log _ pos := Real.rpow_logb two_pos (by norm_num) pos

/-- **The splits of each family give what its single program gives**, for every list of indices,
every count and every number of splits. -/
theorem sparse_attend_splits {blockT numSplits : Nat} (tile : 0 < blockT) (splits : 0 < numSplits) :
    (∀ (call : Dsv4Attend ℝ) (isHip : Bool) (b m h : Nat),
      call.sparseAttnPaged realExp isHip blockT b m h =
          sparseSoftmax realExp (call.entries b m h) (call.nActive b m)
            (Real.exp (call.attnSink h)) ∧
        call.sparseAttnSplitk realExp isHip blockT numSplits b m h =
          some (sparseSoftmax realExp (call.entries b m h) (call.nActive b m)
            (Real.exp (call.attnSink h)))) ∧
    (∀ (call : GlmAttend ℝ) (b m h : Nat),
      (∃ col < call.nActive b m, (call.gathered b m h).valid col) →
      call.glmDsaSparse realExp blockT b m h =
          some (sparseSoftmax realExp (call.gathered b m h) (call.nActive b m) 0) ∧
        call.glmDsaSplitk realExp blockT numSplits b m h =
          some (sparseSoftmax realExp (call.gathered b m h) (call.nActive b m) 0)) ∧
    ∀ (call : QsaAttend ℝ) (row kvHead off blockSplits : Nat), numSplits ≤ blockSplits →
      (∀ col, (call.entries row kvHead off).valid col →
        QsaAttend.sentinel ≤ (call.entries row kvHead off).score col) →
      call.sparsePaged binaryExp blockT row kvHead off =
          sparseSoftmax binaryExp (call.entries row kvHead off) call.topk 0 ∧
        call.sparsePagedSplitk binaryExp blockT numSplits blockSplits row kvHead off =
          sparseSoftmax binaryExp (call.entries row kvHead off) call.topk 0 := by
  refine ⟨fun call isHip b m h => ⟨?_, ?_⟩, fun call b m h someValid => ⟨?_, ?_⟩,
    fun call row kvHead off blockSplits within entryAbove => ?_⟩
  · exact Dsv4Attend.sparseAttnPaged_eq tile
  · exact Dsv4Attend.sparseAttnSplitk_eq tile splits
  · exact GlmAttend.glmDsaSparse_eq tile someValid
  · exact GlmAttend.glmDsaSplitk_eq tile splits someValid
  · have above : ∀ col, (call.gathered row kvHead off).valid col →
        QsaAttend.sentinel ≤ (call.gathered row kvHead off).score col := by
      intro col isValid
      rw [QsaAttend.gathered_valid] at isValid
      rw [(QsaAttend.gathered_entry isValid).1]
      exact entryAbove col isValid
    exact ⟨QsaAttend.sparsePaged_eq tile above, QsaAttend.sparsePagedSplitk_eq tile splits within above⟩

noncomputable def maskedGlm : GlmAttend ℝ where
  q _ _ _ _ := 0
  pool slot _ := 2 * slot
  topkIdxs _ _ col := if col % 2 = 1 then col else -1
  topk := 4
  dimV := 1
  dimR := 0
  scale := 1
  counts := none

noncomputable def maskedDsv4 : Dsv4Attend ℝ where
  q _ _ _ _ := 0
  windowPool slot _ := 2 * slot
  cmpPool slot _ := 7 * slot
  attnSink _ := 0
  topkIdxs _ _ col := if col % 2 = 1 then col else -1
  nWindow := 2
  topk := 4
  dim := 1
  scale := 1
  cmpCounts := some fun _ _ => 2

noncomputable def maskedQsa : QsaAttend ℝ where
  q _ _ _ := 0
  kCache _ _ _ _ := 0
  vCache page slot _ _ := 2 * page + slot
  indices _ col := if col % 2 = 1 then col else -1
  blockTable _ page := page
  tokenToReq _ := 0
  topk := 4
  pageSize := 2
  pageTableWidth := 2
  numCacheBlocks := 2
  numRequests := 1
  groupSize := 1
  headDim := 1
  scaleLog2 := 1

/-- Three splits of tiles of two, one of them without a tile. -/
theorem sparse_attend_splits_masked : maskedDsv4.sparseAttnSplitk realExp true 2 3 0 0 0 =
        some (maskedDsv4.sparseAttnPaged realExp false 2 0 0 0) ∧
      maskedGlm.glmDsaSplitk realExp 2 3 0 0 0 = maskedGlm.glmDsaSparse realExp 2 0 0 0 ∧
      maskedQsa.sparsePagedSplitk binaryExp 2 3 4 0 0 0 = maskedQsa.sparsePaged binaryExp 2 0 0 0 := by
  obtain ⟨dsv4, glm, qsa⟩ := @sparse_attend_splits 2 3 (by decide) (by decide)
  refine ⟨?_, ?_, ?_⟩
  · rw [(dsv4 maskedDsv4 true 0 0 0).2, (dsv4 maskedDsv4 false 0 0 0).1]
  · have someValid : ∃ col < maskedGlm.nActive 0 0, (maskedGlm.gathered 0 0 0).valid col :=
      ⟨1, by decide, rfl⟩
    rw [(glm maskedGlm 0 0 0 someValid).1, (glm maskedGlm 0 0 0 someValid).2]
  · have above : ∀ col, (maskedQsa.entries 0 0 0).valid col →
        QsaAttend.sentinel ≤ (maskedQsa.entries 0 0 0).score col := by
      intro col _
      have score : (maskedQsa.entries 0 0 0).score col = 0 := by simp [QsaAttend.entries, maskedQsa]
      rw [score]
      norm_num [QsaAttend.sentinel]
    rw [(qsa maskedQsa 0 0 0 4 (by decide) above).1, (qsa maskedQsa 0 0 0 4 (by decide) above).2]

end FreeToken
