/-
**The splits of a decode step.**
-/

import FreeToken.Kernel.PagedAttentionRows

namespace FreeToken

namespace AttnInputs

variable {R : Type} [Field R] [LinearOrder R] [IsStrictOrderedRing R] {E : ExpLog R}
  {inp : AttnInputs R}

/-! ### Splits -/

section Splits

variable {kvLen qPos kvSplits : Nat}

omit [Field R] [LinearOrder R] [IsStrictOrderedRing R] in
/-- The splits tile the attended keys, and some of them may be empty. -/
theorem splitBounds_cover {maxKvSplits : Nat} (pos : 0 < kvSplits)
    (within : kvSplits ≤ maxKvSplits) :
    inp.effectiveLen kvLen qPos ≤
      cdiv (cdiv (inp.effectiveLen kvLen qPos) kvSplits) minBlockKv * minBlockKv * maxKvSplits := by
  have rounded := le_cdiv_mul (cdiv (inp.effectiveLen kvLen qPos) kvSplits)
    (show 0 < minBlockKv by decide)
  calc inp.effectiveLen kvLen qPos
      ≤ cdiv (inp.effectiveLen kvLen qPos) kvSplits * kvSplits := le_cdiv_mul _ pos
    _ ≤ cdiv (cdiv (inp.effectiveLen kvLen qPos) kvSplits) minBlockKv * minBlockKv * maxKvSplits :=
        Nat.mul_le_mul rounded within

omit [LinearOrder R] [IsStrictOrderedRing R] in
theorem sum_effective (lt : qPos < kvLen) (weight : Nat → R) :
    ∑ key ∈ inp.attendedKeys qPos, weight key =
      ∑ rel ∈ Finset.range (inp.effectiveLen kvLen qPos), weight (inp.effectiveStart qPos + rel) := by
  have keys : inp.attendedKeys qPos = Finset.Ico (inp.effectiveStart qPos) (qPos + 1) := by
    ext key
    rw [mem_attendedKeys, Finset.mem_Ico, effectiveStart]
    split <;> omega
  have length : inp.effectiveLen kvLen qPos = qPos + 1 - inp.effectiveStart qPos := by
    unfold effectiveLen
    omega
  rw [keys, Finset.sum_Ico_eq_sum_range, length]

end Splits

/-! ### A split -/

section Stage1

variable {qPositions numKvSplits : Nat → Nat} {batchId : Nat}

def relScore (inp : AttnInputs R) (qPositions : Nat → Nat) (kvHead batchId qHead rel : Nat) : R :=
  inp.keyScore kvHead batchId batchId qHead (inp.effectiveStart (qPositions batchId) + rel)

def relRow (inp : AttnInputs R) (qPositions : Nat → Nat) (kvHead batchId rel : Nat) : Nat → R :=
  inp.keyRow kvHead batchId (inp.effectiveStart (qPositions batchId) + rel)

/-- A split hands over its keys as one column. -/
theorem decodeStage1_eq {headBlockId splitId qHead : Nat} {bounds : Nat × Nat}
    (isSplit : inp.splitBounds (inp.kvLen batchId) (qPositions batchId) (numKvSplits batchId)
      splitId = bounds) (nonempty : bounds.1 < bounds.2) {kvHead : Nat}
    (isHead : headBlockId / cdiv inp.group inp.validBlockH = kvHead) :
    ∃ part : AttnPartial R,
      inp.decodeStage1 E qPositions numKvSplits batchId headBlockId splitId qHead = some part ∧
      E.exp part.2 = ∑ c ∈ Finset.range (bounds.2 - bounds.1),
        E.exp (inp.relScore qPositions kvHead batchId qHead (bounds.1 + c)) ∧
      ∀ d, E.exp part.2 * part.1 d = ∑ c ∈ Finset.range (bounds.2 - bounds.1),
        E.exp (inp.relScore qPositions kvHead batchId qHead (bounds.1 + c)) *
          inp.relRow qPositions kvHead batchId (bounds.1 + c) d := by
  obtain ⟨splitScore, isScore⟩ : ∃ score : Nat → R, ∀ c, score c =
      inp.relScore qPositions kvHead batchId qHead (bounds.1 + c) := ⟨_, fun _ => rfl⟩
  obtain ⟨splitRow, isRow⟩ : ∃ row : Nat → Nat → R, ∀ c, row c =
      inp.relRow qPositions kvHead batchId (bounds.1 + c) := ⟨_, fun _ => rfl⟩
  obtain ⟨st, looped, holds⟩ := @tiles_hold _ _ _ _ E (Finset.range (bounds.2 - bounds.1))
    splitScore splitRow decodeBlockN _ _ _
    (inp.decodeTile E batchId kvHead qHead (qPositions batchId) bounds.1 bounds.2)
    (SoftmaxState.start_holds none) (cdiv (bounds.2 - bounds.1) decodeBlockN) (by
      intro key mem
      rw [Finset.mem_range] at mem
      exact mem.trans_le (le_cdiv_mul _ (by decide))) (by
      intro tile lt st total sums holds
      have begun := lt_cdiv lt
      -- the first column of a tile is always there
      have finite : max ((Finset.range decodeBlockN).sup fun c =>
          if bounds.1 + tile * decodeBlockN + c < bounds.2 then
            ((rowDot inp.blockD (loadRow True inp.headDim (inp.q batchId qHead))
              (loadRow (bounds.1 + tile * decodeBlockN + c < bounds.2) inp.headDim
                (inp.kCache (if bounds.1 + tile * decodeBlockN + c < bounds.2
                  then inp.kvIndices (inp.kvIndptr batchId +
                    (inp.effectiveStart (qPositions batchId) +
                      (bounds.1 + tile * decodeBlockN + c))) else 0) kvHead)) * inp.smScale : R) :
              WithBot R) else ⊥) st.m ≠ ⊥ := by
        intro none
        have first := (Finset.sup_eq_bot_iff _ _).mp (max_eq_bot.mp none).1 0
          (Finset.mem_range.mpr (by decide))
        rw [if_pos (by omega)] at first
        exact WithBot.coe_ne_bot first
      refine absorb_keys holds finite (fun c _ => ?_) (fun c _ masked => ?_) fun c _ masked => ?_
      · rw [Finset.mem_range]
        omega
      · rw [isScore, ← add_assoc]
        exact tile_score trivial masked _ _ _ _ _
      · rw [isRow, ← add_assoc]
        exact tile_value masked _ _ _)
  have pos : 0 < ∑ key ∈ Finset.range (bounds.2 - bounds.1), E.exp (splitScore key) :=
    Finset.sum_pos (fun key _ => E.exp_pos _) ⟨0, Finset.mem_range.mpr (by omega)⟩
  have total : (((none : Option R).map E.exp).getD 0 : R) = 0 := rfl
  rw [total, zero_add] at holds
  obtain ⟨reference, isMax, nonzero, weight, rows⟩ := SoftmaxState.partial_holds holds pos
  refine ⟨(fun d => st.acc d / st.l, reference + E.log st.l), ?_, ?_, fun d => ?_⟩
  · unfold decodeStage1
    dsimp only
    rw [isSplit, isHead, looped, Option.bind_eq_bind, Option.bind_some, isMax]
    exact if_neg nonzero.ne'
  · rw [weight]
    simp only [isScore]
  · rw [rows d, zero_add]
    simp only [isScore, isRow]

/-! ### The lanes of a head -/

def kvHeadOf (inp : AttnInputs R) (qHead : Nat) : Nat :=
  qHead / inp.validBlockH / cdiv inp.group inp.validBlockH

omit [Field R] [LinearOrder R] [IsStrictOrderedRing R] in
theorem validBlockH_le (hip : Bool) : inp.validBlockH ≤ inp.blockH hip := by
  have lanes := le_nextPowerOf2 inp.validBlockH
  unfold blockH
  split
  · exact lanes.trans (le_max_left _ _)
  · exact lanes

theorem stage1_stored (hip : Bool) {splitId qHead : Nat} (pos : 0 < inp.group)
    (isHead : qHead < inp.numQHeads)
    (nonempty : (inp.splitBounds (inp.kvLen batchId) (qPositions batchId) (numKvSplits batchId)
        splitId).1 <
      (inp.splitBounds (inp.kvLen batchId) (qPositions batchId) (numKvSplits batchId) splitId).2)
    (mid : Nat → Option (AttnPartial R)) :
    storeAll (List.range (cdiv inp.numQHeads inp.validBlockH))
        (inp.stage1Writes E hip qPositions numKvSplits batchId splitId) mid qHead =
      inp.decodeStage1 E qPositions numKvSplits batchId (qHead / inp.validBlockH) splitId qHead := by
  have block : 0 < inp.validBlockH := by
    unfold validBlockH
    omega
  have lane := Nat.div_add_mod' qHead inp.validBlockH
  have small := Nat.mod_lt qHead block
  have wide := inp.validBlockH_le hip
  refine storeAll_eq ⟨qHead / inp.validBlockH, ?_, ?_⟩ fun program _ other written => ?_
  · exact List.mem_range.mpr (div_lt_cdiv block isHead)
  · unfold stage1Writes
    rw [if_pos]
    refine ⟨nonempty, ⟨by omega, by omega⟩, ?_, isHead⟩
    rw [Nat.succ_mul]
    omega
  · -- no other block holds the head
    unfold stage1Writes at written
    dsimp only at written
    split at written
    · rename_i lt
      obtain ⟨-, ⟨lower, -⟩, upper, -⟩ := lt
      have same : program = qHead / inp.validBlockH := by
        refine ((Nat.div_eq_iff block).mpr ?_).symm
        rw [Nat.succ_mul] at upper
        omega
      rw [← same]
      exact (Option.some.inj written).symm
    · cases written

end Stage1

/-! ### The splits, merged -/

/-- **The splits, merged**. -/
theorem decodePagedAttention_eq {qPositions numKvSplits : Nat → Nat} {batchId maxKvSplits : Nat}
    (hip : Bool) (mid : Nat → Nat → Nat → Option (AttnPartial R)) {qHead : Nat}
    (pos : 0 < inp.group) (isHead : qHead < inp.numQHeads)
    (splits : 0 < numKvSplits batchId) (within : numKvSplits batchId ≤ maxKvSplits)
    (lt : qPositions batchId < inp.kvLen batchId) :
    ∃ row, inp.decodePagedAttention E hip qPositions numKvSplits maxKvSplits mid batchId qHead =
        some row ∧
      ∀ d < inp.headDim, row d = inp.softmaxAttention E (inp.kvHeadOf qHead) batchId batchId qHead
        (qPositions batchId) d := by
  obtain ⟨length, isLength⟩ : ∃ length,
      length = inp.effectiveLen (inp.kvLen batchId) (qPositions batchId) := ⟨_, rfl⟩
  obtain ⟨perSplit, isPer⟩ : ∃ perSplit,
      perSplit = cdiv (cdiv length (numKvSplits batchId)) minBlockKv * minBlockKv := ⟨_, rfl⟩
  have bounds : ∀ splitId, inp.splitBounds (inp.kvLen batchId) (qPositions batchId)
      (numKvSplits batchId) splitId =
        (perSplit * splitId, min (perSplit * (splitId + 1)) length) := by
    intro splitId
    rw [isPer, isLength]
    rfl
  have cover : length ≤ perSplit * maxKvSplits := by
    rw [isPer, isLength]
    exact inp.splitBounds_cover splits within
  obtain ⟨weight, isWeight⟩ : ∃ weight : Nat → R, ∀ rel, weight rel =
      E.exp (inp.relScore qPositions (inp.kvHeadOf qHead) batchId qHead rel) := ⟨_, fun _ => rfl⟩
  obtain ⟨row, isRow⟩ : ∃ row : Nat → Nat → R, ∀ rel, row rel =
      inp.relRow qPositions (inp.kvHeadOf qHead) batchId rel := ⟨_, fun _ => rfl⟩
  obtain ⟨st, looped, holds⟩ := @foldlM_range _
    (inp.mergeSplit E qPositions numKvSplits (fun splitId =>
      storeAll (List.range (cdiv inp.numQHeads inp.validBlockH))
        (inp.stage1Writes E hip qPositions numKvSplits batchId splitId) (mid batchId splitId))
      batchId qHead)
    (fun splitId st => st.Holds E
      (((inp.sink qHead).map E.exp).getD 0 +
        ∑ rel ∈ Finset.range (min (perSplit * splitId) length), weight rel)
      fun d => ∑ rel ∈ Finset.range (min (perSplit * splitId) length), weight rel * row rel d)
    maxKvSplits (SoftmaxState.start (inp.sink qHead))
    (by simpa using SoftmaxState.start_holds (inp.sink qHead)) (by
      intro splitId _ st holds
      have next : perSplit * (splitId + 1) = perSplit * splitId + perSplit := Nat.mul_succ _ _
      unfold mergeSplit
      dsimp only
      rw [bounds]
      by_cases nonempty : perSplit * splitId < min (perSplit * (splitId + 1)) length
      · have filled : min (perSplit * splitId) length = perSplit * splitId := by omega
        have grown : min (perSplit * (splitId + 1)) length = perSplit * splitId +
            (min (perSplit * (splitId + 1)) length - perSplit * splitId) := by omega
        obtain ⟨part, computed, total, sums⟩ := @decodeStage1_eq R _ _ _ E inp qPositions
          numKvSplits batchId (qHead / inp.validBlockH) splitId qHead _ (bounds splitId) nonempty
          (inp.kvHeadOf qHead) rfl
        rw [if_pos nonempty, stage1_stored hip pos isHead (by rw [bounds]; exact nonempty),
          computed, Option.bind_eq_bind, Option.bind_some]
        obtain ⟨st', absorbed, holds'⟩ := SoftmaxState.absorb_holds holds
          (show max (part.2 : WithBot R) st.m ≠ ⊥ from fun none =>
            WithBot.coe_ne_bot (max_eq_bot.mp none).1) 1 (fun _ => part.2) fun _ => part.1
        refine ⟨st', absorbed, ⟨?_, fun d => ?_⟩⟩
        · rw [holds'.total, Finset.sum_range_one, filled, grown, Finset.sum_range_add, ← add_assoc]
          refine congrArg _ (total.trans (Finset.sum_congr rfl fun c _ => ?_))
          exact (isWeight _).symm
        · rw [holds'.sums d, Finset.sum_range_one, filled, grown, Finset.sum_range_add]
          refine congrArg _ ((sums d).trans (Finset.sum_congr rfl fun c _ => ?_))
          rw [isWeight, isRow]
      · have same : min (perSplit * (splitId + 1)) length = min (perSplit * splitId) length := by
          omega
        rw [if_neg nonempty]
        exact ⟨st, rfl, by rw [same]; exact holds⟩)
  have all : min (perSplit * maxKvSplits) length = length := min_eq_right cover
  rw [all] at holds
  refine ⟨st.out, ?_, softmax_of_holds ⟨?_, fun d => ?_⟩⟩
  · unfold decodePagedAttention decodeStage2
    rw [looped]
    rfl
  · rw [holds.total, sum_effective lt, ← isLength]
    simp only [isWeight, relScore]
  · rw [holds.sums d, zero_add, sum_effective lt, ← isLength]
    simp only [isWeight, isRow, relScore, relRow]

/-! ### The head of the cache -/

omit [Field R] [LinearOrder R] [IsStrictOrderedRing R] in
theorem group_le_block (pos : 0 < inp.group) :
    inp.group ≤ inp.validBlockH * cdiv inp.group inp.validBlockH := by
  have block : 0 < inp.validBlockH := by
    unfold validBlockH
    omega
  rw [mul_comm]
  exact le_cdiv_mul _ block

omit [Field R] [LinearOrder R] [IsStrictOrderedRing R] in
theorem block_eq_group (pos : 0 < inp.group) :
    inp.validBlockH * cdiv inp.group inp.validBlockH = inp.group ↔
      inp.group ≤ 16 ∨ 16 ∣ inp.group := by
  unfold validBlockH
  rcases Nat.le_total inp.group 16 with small | large
  · have one : cdiv inp.group inp.group = 1 := by
      exact (Nat.div_eq_iff pos).mpr (by omega)
    rw [Nat.min_eq_right small, one, Nat.mul_one]
    exact iff_of_true rfl (Or.inl small)
  · rw [Nat.min_eq_left large]
    constructor
    · intro whole
      exact Or.inr ⟨_, whole.symm⟩
    · rintro (small | whole)
      · have same : inp.group = 16 := by omega
        rw [same]
        rfl
      · unfold cdiv
        omega

omit [Field R] [LinearOrder R] [IsStrictOrderedRing R] in
/-- **The heads for which that is the head of the group**. -/
theorem kvHeadOf_iff (pos : 0 < inp.group)
    (grouped : inp.numQHeads = inp.group * inp.numKvHeads) :
    (∀ qHead < inp.numQHeads, inp.kvHeadOf qHead = qHead / inp.group) ↔
      inp.group ≤ 16 ∨ 16 ∣ inp.group ∨ inp.numKvHeads = 1 := by
  have reaches := inp.group_le_block pos
  unfold kvHeadOf
  simp only [Nat.div_div_eq_div_mul]
  rw [← or_assoc, ← block_eq_group pos]
  constructor
  · intro all
    by_contra neither
    rw [not_or] at neither
    obtain ⟨wider, several⟩ := neither
    have none : inp.numKvHeads ≠ 0 := by
      intro none
      rw [none, Nat.mul_zero] at grouped
      unfold group at pos
      rw [grouped, Nat.zero_div] at pos
      exact absurd pos (lt_irrefl _)
    -- the first head of the second group
    have two := Nat.mul_le_mul_left inp.group (show 2 ≤ inp.numKvHeads by omega)
    have second := all inp.group (by omega)
    rw [Nat.div_self pos, Nat.div_eq_of_lt (by omega)] at second
    omega
  · rintro (whole | one) qHead isHead
    · rw [whole]
    · rw [one, Nat.mul_one] at grouped
      rw [Nat.div_eq_of_lt (by omega), Nat.div_eq_of_lt (by omega)]

end AttnInputs

end FreeToken
