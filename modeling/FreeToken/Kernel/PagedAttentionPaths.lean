/-
**The paths of the paged attention agree.**
-/

import FreeToken.Kernel.PagedAttentionDecode
import Mathlib.Analysis.SpecialFunctions.Log.Basic

namespace FreeToken

/-- The exponential and the logarithm of the reals. -/
noncomputable def realExp : ExpLog ℝ where
  exp := Real.exp
  log := Real.log
  exp_add := Real.exp_add
  exp_pos := Real.exp_pos
  exp_log _ pos := Real.exp_log pos

/-- An output is the softmax-weighted sum over the keys of a position. -/
def AttnInputs.Reads (inp : AttnInputs ℝ) (kvHead req token head position : Nat)
    (output : Option (Nat → ℝ)) : Prop :=
  ∃ row, output = some row ∧
    ∀ d < inp.headDim, row d = inp.softmaxAttention realExp kvHead req token head position d

/-- **Every path reads the keys of the head of the group**, for every launch whose metadata fit. -/
structure PathsAgree (numQHeads numKvHeads : Nat) : Prop where
  decode : ∀ inp : AttnInputs ℝ, inp.numQHeads = numQHeads → inp.numKvHeads = numKvHeads →
    ∀ hip qPositions numKvSplits maxKvSplits mid, ∀ batchId, ∀ qHead < numQHeads,
      0 < numKvSplits batchId → numKvSplits batchId ≤ maxKvSplits →
      qPositions batchId < inp.kvLen batchId →
      inp.Reads (qHead / (numQHeads / numKvHeads)) batchId batchId qHead (qPositions batchId)
        (inp.decodePagedAttention realExp hip qPositions numKvSplits maxKvSplits mid batchId qHead)
  extend : ∀ inp : AttnInputs ℝ, inp.numQHeads = numQHeads → inp.numKvHeads = numKvHeads →
    ∀ ext : AttnInputs.ExtendInputs ℝ, ext.Fits inp → ∀ blockM > 0, ∀ blockN > 0, ∀ out,
      ∀ seqId < ext.numSeqs, ∀ new < ext.qLen seqId, ∀ qHead < numQHeads,
      inp.Reads (qHead / (numQHeads / numKvHeads)) seqId (ext.qoIndptr seqId + new) qHead
        (ext.prefixLens seqId + new)
        (inp.extendPagedAttention realExp ext blockM blockN out (ext.qoIndptr seqId + new) qHead)
  paged : ∀ inp : AttnInputs ℝ, inp.numQHeads = numQHeads → inp.numKvHeads = numKvHeads →
    ∀ qToReq qPositions, ∀ blockN > 0, ∀ token, ∀ qHead < numQHeads,
      qPositions token < inp.kvLen (qToReq token) →
      inp.Reads (qHead / (numQHeads / numKvHeads)) (qToReq token) token qHead (qPositions token)
        (inp.pagedAttention realExp qToReq qPositions blockN token qHead)

def countedHeads (numQHeads numKvHeads : Nat) : AttnInputs ℝ where
  q _ _ _ := 0
  kCache _ _ _ := 0
  vCache _ kvHead _ := kvHead
  kvIndptr req := req
  kvIndices key := key
  smScale := 1
  slidingWindow := none
  sinks := none
  numQHeads := numQHeads
  numKvHeads := numKvHeads
  headDim := 1

theorem countedHeads_reads (numQHeads numKvHeads kvHead qHead : Nat) :
    (countedHeads numQHeads numKvHeads).softmaxAttention realExp kvHead 0 0 qHead 0 0 = kvHead := by
  have keys : (countedHeads numQHeads numKvHeads).attendedKeys 0 = {0} := rfl
  unfold AttnInputs.softmaxAttention
  rw [keys, Finset.sum_singleton, Finset.sum_singleton]
  show realExp.exp _ * (kvHead : ℝ) / (0 + realExp.exp _) = kvHead
  rw [zero_add, mul_div_cancel_left₀ _ (realExp.exp_pos _).ne']

section Heads

variable {numQHeads numKvHeads : Nat}

theorem heads_of_agree (grouped : numKvHeads ∣ numQHeads)
    (agree : PathsAgree numQHeads numKvHeads) :
    numQHeads / numKvHeads ≤ 16 ∨ 16 ∣ numQHeads / numKvHeads ∨ numKvHeads = 1 := by
  have whole : numQHeads = numQHeads / numKvHeads * numKvHeads := (Nat.div_mul_cancel grouped).symm
  by_contra apart
  have group : 0 < numQHeads / numKvHeads := by omega
  have heads := mt (@AttnInputs.kvHeadOf_iff ℝ (countedHeads numQHeads numKvHeads) group whole).mp
    apart
  rw [not_forall] at heads
  obtain ⟨qHead, missed⟩ := heads
  rw [Classical.not_imp] at missed
  obtain ⟨isHead, differs⟩ := missed
  obtain ⟨row, computed, reads⟩ := agree.decode (countedHeads numQHeads numKvHeads) rfl rfl false
    (fun _ => 0) (fun _ => 1) 1 (fun _ _ _ => none) 0 qHead isHead Nat.one_pos le_rfl Nat.one_pos
  obtain ⟨row', computed', reads'⟩ := @AttnInputs.decodePagedAttention_eq ℝ _ _ _ realExp
    (countedHeads numQHeads numKvHeads) (fun _ => 0) (fun _ => 1) 0 1 false (fun _ _ _ => none)
    qHead group isHead Nat.one_pos le_rfl Nat.one_pos
  rw [computed] at computed'
  have same := (reads 0 Nat.one_pos).symm.trans
    ((congrFun (Option.some.inj computed') 0).trans (reads' 0 Nat.one_pos))
  rw [countedHeads_reads, countedHeads_reads] at same
  exact differs (Nat.cast_injective same).symm

theorem agree_of_heads (grouped : numKvHeads ∣ numQHeads)
    (fits : numQHeads / numKvHeads ≤ 16 ∨ 16 ∣ numQHeads / numKvHeads ∨ numKvHeads = 1) :
    PathsAgree numQHeads numKvHeads := by
  have whole : numQHeads = numQHeads / numKvHeads * numKvHeads := (Nat.div_mul_cancel grouped).symm
  refine ⟨?_, ?_, ?_⟩
  · rintro inp rfl rfl hip qPositions numKvSplits maxKvSplits mid batchId qHead isHead splits
      within lt
    have group : 0 < inp.group := by
      rcases Nat.eq_zero_or_pos inp.group with none | some
      · have none' : inp.numQHeads / inp.numKvHeads = 0 := none
        rw [none', Nat.zero_mul] at whole
        omega
      · exact some
    obtain ⟨row, computed, reads⟩ := @AttnInputs.decodePagedAttention_eq ℝ _ _ _ realExp inp
      qPositions numKvSplits batchId maxKvSplits hip mid qHead group isHead splits within lt
    rw [(AttnInputs.kvHeadOf_iff group whole).mpr fits qHead isHead] at reads
    exact ⟨row, computed, reads⟩
  · rintro inp rfl rfl ext launched blockM positiveM blockN positiveN out seqId isSeq new isNew
      qHead isHead
    exact AttnInputs.extendPagedAttention_eq launched positiveM positiveN out isSeq isNew
      (Nat.div_lt_of_lt_mul (isHead.trans_eq whole))
  · rintro inp rfl rfl qToReq qPositions blockN positiveN token qHead isHead lt
    exact AttnInputs.pagedAttention_eq positiveN lt

/-- **The paths agree if and only if the decode kernel reads the head of the group for all heads.** -/
theorem paged_attention_paths_iff (grouped : numKvHeads ∣ numQHeads) :
    PathsAgree numQHeads numKvHeads ↔
      numQHeads / numKvHeads ≤ 16 ∨ 16 ∣ numQHeads / numKvHeads ∨ numKvHeads = 1 :=
  ⟨heads_of_agree grouped, agree_of_heads grouped⟩

end Heads

theorem paged_attention_paths_six : PathsAgree 24 4 :=
  (paged_attention_paths_iff (by decide)).mpr (Or.inl (by decide))

/-- Twenty heads for each of two: the heads 20 to 31 read the keys of the first. -/
theorem paged_attention_twenty : ¬ PathsAgree 40 2 := by
  intro agree
  rcases heads_of_agree (by decide) agree with small | whole | one
  · exact absurd small (by decide)
  · exact absurd whole (by decide)
  · exact absurd one (by decide)

end FreeToken
