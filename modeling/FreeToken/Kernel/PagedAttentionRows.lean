/-
**The rows of the attention kernels.**

* `splitBounds_cover`: the splits of a decode step tile the attended keys, and some may be empty;
* `decodeStage1_eq`, `decodePagedAttention_eq`: **the splits of a decode step, merged**, with the head
  of the cache that the block of a query head reads.
-/

import FreeToken.Kernel.PagedAttentionTiles

namespace FreeToken

open List

namespace AttnInputs

variable {R : Type} [Field R] [LinearOrder R] [IsStrictOrderedRing R] {E : ExpLog R}
  {inp : AttnInputs R}

omit [Field R] [LinearOrder R] [IsStrictOrderedRing R] in
theorem mem_attendedKeys {position key : Nat} : key ∈ inp.attendedKeys position ↔
      key ≤ position ∧ (0 < inp.window → position < key + inp.window) := by
  unfold attendedKeys
  rw [Finset.mem_Icc]
  split <;> omega

section Loads

variable {lt inside' : Prop} [Decidable lt] [Decidable inside']

omit [LinearOrder R] [IsStrictOrderedRing R] in
theorem tile_score (here : lt) (here' : inside') (kvHead req token head key : Nat) :
    rowDot inp.blockD (loadRow lt inp.headDim (inp.q token head))
      (loadRow inside' inp.headDim
        (inp.kCache (if inside' then inp.kvIndices (inp.kvIndptr req + key) else 0) kvHead)) *
        inp.smScale = inp.keyScore kvHead req token head key := by
  unfold blockD keyScore
  rw [rowDot_load here here', if_pos here']

omit [LinearOrder R] [IsStrictOrderedRing R] in
theorem tile_value (here' : inside') (kvHead req key : Nat) : loadRow inside' inp.headDim
      (inp.vCache (if inside' then inp.kvIndices (inp.kvIndptr req + key) else 0) kvHead) =
        inp.keyRow kvHead req key := by
  funext d
  unfold keyRow loadRow
  rw [if_pos here']
  simp only [here', true_and]

end Loads

/-! ### One query -/

/-- One query against the cache. -/
theorem pagedAttention_eq {qToReq qPositions : Nat → Nat} {blockN token head : Nat}
    (pos : 0 < blockN) (lt : qPositions token < inp.kvLen (qToReq token)) :
    ∃ row, inp.pagedAttention E qToReq qPositions blockN token head = some row ∧
      ∀ d < inp.headDim, row d = inp.softmaxAttention E (head / inp.group) (qToReq token) token head
        (qPositions token) d := by
  have covered : ∀ key ∈ inp.attendedKeys (qPositions token),
      key < cdiv (inp.kvLen (qToReq token)) blockN * blockN := by
    intro key mem
    have pre := (mem_attendedKeys.mp mem).1
    have := le_cdiv_mul (inp.kvLen (qToReq token)) pos
    omega
  obtain ⟨st, looped, holds⟩ := tiles_hold
    (inp.keyScore (head / inp.group) (qToReq token) token head)
    (inp.keyRow (head / inp.group) (qToReq token))
    (inp.pagedTile E blockN token head (qToReq token) (qPositions token))
    (SoftmaxState.start_holds (inp.sink head)) covered (by
      intro tile _ st total sums holds
      refine onlineTile_holds holds (fun skipped => skipped) (fun c _ => ?_) (fun c _ masked => ?_)
        fun c _ masked => ?_
      · rw [mem_attendedKeys]
        constructor
        · exact fun both => both.2
        · exact fun both => ⟨by omega, both⟩
      · exact tile_score trivial masked.1 _ _ _ _ _
      · exact tile_value masked.1 _ _ _)
  refine ⟨st.out, ?_, softmax_of_holds holds⟩
  unfold pagedAttention
  dsimp only
  rw [looped]
  rfl

/-! ### The queries of a prefill -/

section Extend

variable {ext : ExtendInputs R} {blockM blockN seqId head blockMId lane : Nat}

theorem extendRow_eq (pos : 0 < blockN) (here : lane < blockM)
    (inBlock : offsM blockM blockMId lane < ext.qLen seqId)
    (fits : ext.prefixLens seqId + ext.qLen seqId ≤ inp.kvLen seqId) :
    ∃ row, inp.extendRow E ext blockM blockN seqId head blockMId lane = some row ∧
      ∀ d < inp.headDim, row d = inp.softmaxAttention E (head / inp.group) seqId
        (ext.qoIndptr seqId + offsM blockM blockMId lane) head
        (ext.prefixLens seqId + offsM blockM blockMId lane) d := by
  have block : offsM blockM blockMId lane < (blockMId + 1) * blockM := by
    rw [offsM, Nat.succ_mul]
    omega
  have covered : ∀ key ∈ inp.attendedKeys (ext.prefixLens seqId + offsM blockM blockMId lane),
      key < cdiv (min (inp.kvLen seqId) (ext.prefixLens seqId +
        min (ext.qLen seqId) ((blockMId + 1) * blockM))) blockN * blockN := by
    intro key mem
    have pre := (mem_attendedKeys.mp mem).1
    have := le_cdiv_mul (min (inp.kvLen seqId) (ext.prefixLens seqId +
      min (ext.qLen seqId) ((blockMId + 1) * blockM))) pos
    omega
  obtain ⟨st, looped, holds⟩ := tiles_hold
    (inp.keyScore (head / inp.group) seqId (ext.qoIndptr seqId + offsM blockM blockMId lane) head)
    (inp.keyRow (head / inp.group) seqId)
    (inp.extendTile E ext blockM blockN seqId head blockMId lane)
    (SoftmaxState.start_holds (inp.sink head)) covered (by
      intro tile _ st total sums holds
      refine onlineTile_holds holds (fun skipped => skipped lane here) (fun c _ => ?_)
        (fun c _ masked => ?_) fun c _ masked => ?_
      · rw [mem_attendedKeys]
        constructor
        · exact fun all => all.2.2
        · exact fun both => ⟨inBlock, by omega, both⟩
      · exact tile_score inBlock masked.2.1 _ _ _ _ _
      · exact tile_value masked.2.1 _ _ _)
  refine ⟨st.out, ?_, softmax_of_holds holds⟩
  unfold extendRow
  dsimp only
  rw [looped]
  rfl

omit [LinearOrder R] [IsStrictOrderedRing R] in
theorem sum_attendedKeys (prefixLen offset : Nat) (weight : Nat → R) :
    ∑ key ∈ inp.attendedKeys (prefixLen + offset), weight key =
      ∑ key ∈ (inp.attendedKeys (prefixLen + offset)).filter (· < prefixLen), weight key +
        ∑ key ∈ (Finset.range (offset + 1)).filter
          (fun key => prefixLen + key ∈ inp.attendedKeys (prefixLen + offset)),
            weight (prefixLen + key) := by
  rw [← Finset.sum_filter_add_sum_filter_not _ (· < prefixLen)]
  congr 1
  refine (Finset.sum_bij (fun key _ => prefixLen + key) (fun key mem => ?_)
    (fun first _ second _ same => add_left_cancel same) (fun key mem => ?_)
    fun key _ => rfl).symm
  · rw [Finset.mem_filter] at mem ⊢
    exact ⟨mem.2, by omega⟩
  · rw [Finset.mem_filter] at mem
    have bound := (mem_attendedKeys.mp mem.1).1
    refine ⟨key - prefixLen, ?_, by omega⟩
    have back : prefixLen + (key - prefixLen) = key := by omega
    rw [Finset.mem_filter, Finset.mem_range, back]
    exact ⟨by omega, mem.1⟩

theorem extendSplitRow_eq {kExtend vExtend : Nat → Nat → Nat → R} (pos : 0 < blockN)
    (here : lane < blockM) (inBlock : offsM blockM blockMId lane < ext.qLen seqId)
    (stored : ∀ new < ext.qLen seqId, ∀ kvHead < inp.numKvHeads, ∀ d < inp.headDim,
      kExtend (ext.qoIndptr seqId + new) kvHead d =
        inp.kCache (inp.kvIndices (inp.kvIndptr seqId + (ext.prefixLens seqId + new))) kvHead d ∧
      vExtend (ext.qoIndptr seqId + new) kvHead d =
        inp.vCache (inp.kvIndices (inp.kvIndptr seqId + (ext.prefixLens seqId + new))) kvHead d)
    (isHead : head / inp.group < inp.numKvHeads) :
    ∃ row, inp.extendSplitRow E ext kExtend vExtend blockM blockN seqId head blockMId lane =
        some row ∧
      ∀ d < inp.headDim, row d = inp.softmaxAttention E (head / inp.group) seqId
        (ext.qoIndptr seqId + offsM blockM blockMId lane) head
        (ext.prefixLens seqId + offsM blockM blockMId lane) d := by
  have block : offsM blockM blockMId lane < (blockMId + 1) * blockM := by
    rw [offsM, Nat.succ_mul]
    omega
  obtain ⟨middle, looped, holds⟩ := @tiles_hold _ _ _ _ E
    ((inp.attendedKeys (ext.prefixLens seqId + offsM blockM blockMId lane)).filter
      (· < ext.prefixLens seqId))
    (inp.keyScore (head / inp.group) seqId (ext.qoIndptr seqId + offsM blockM blockMId lane) head)
    (inp.keyRow (head / inp.group) seqId) blockN _ _ _
    (inp.extendPrefixTile E ext blockM blockN seqId head blockMId lane)
    (SoftmaxState.start_holds (inp.sink head)) (cdiv (ext.prefixLens seqId) blockN) (by
      intro key mem
      have pre := (Finset.mem_filter.mp mem).2
      exact pre.trans_le (le_cdiv_mul _ pos)) (by
      intro tile _ st total sums holds
      refine onlineTile_holds holds (fun skipped => skipped.2 lane here) (fun c _ => ?_)
        (fun c _ masked => ?_) fun c _ masked => ?_
      · rw [Finset.mem_filter, mem_attendedKeys]
        constructor
        · exact fun all => ⟨⟨by omega, all.2.2⟩, all.2.1⟩
        · exact fun both => ⟨inBlock, both.2, both.1.2⟩
      · exact tile_score inBlock masked.2.1 _ _ _ _ _
      · exact tile_value masked.2.1 _ _ _)
  -- the new rows are counted from the first of them
  obtain ⟨newScore, isScore⟩ : ∃ score : Nat → R, ∀ key, score key =
      inp.keyScore (head / inp.group) seqId (ext.qoIndptr seqId + offsM blockM blockMId lane) head
        (ext.prefixLens seqId + key) := ⟨_, fun _ => rfl⟩
  obtain ⟨newRow, isRow⟩ : ∃ row : Nat → Nat → R, ∀ key, row key =
      inp.keyRow (head / inp.group) seqId (ext.prefixLens seqId + key) := ⟨_, fun _ => rfl⟩
  obtain ⟨st, looped', holds'⟩ := @tiles_hold _ _ _ _ E
    ((Finset.range (offsM blockM blockMId lane + 1)).filter fun key =>
      ext.prefixLens seqId + key ∈
        inp.attendedKeys (ext.prefixLens seqId + offsM blockM blockMId lane))
    newScore newRow blockN _ _ _
    (inp.extendCurrentTile E ext kExtend vExtend blockM blockN seqId head blockMId lane)
    holds (cdiv (min (ext.qLen seqId) ((blockMId + 1) * blockM)) blockN) (by
      intro key mem
      have pre := Finset.mem_range.mp (Finset.mem_filter.mp mem).1
      have := le_cdiv_mul (min (ext.qLen seqId) ((blockMId + 1) * blockM)) pos
      omega) (by
      intro tile _ st total sums holds
      refine onlineTile_holds holds (fun skipped => skipped.2 lane here) (fun c _ => ?_)
        (fun c _ masked => ?_) fun c _ masked => ?_
      · rw [Finset.mem_filter, Finset.mem_range, mem_attendedKeys]
        constructor
        · exact fun all => ⟨by omega, by omega, fun windowed => by have := all.2.2.2 windowed; omega⟩
        · exact fun both => ⟨inBlock, by omega, by omega, fun windowed => by
            have := both.2.2 windowed
            omega⟩
      · have new : tile * blockN + c < ext.qLen seqId := by omega
        unfold blockD extendQuery
        rw [rowDot_load inBlock masked.2.1, isScore, keyScore]
        congr 1
        refine Finset.sum_congr rfl fun d mem => ?_
        rw [Finset.mem_range] at mem
        rw [(stored _ new _ isHead d mem).1]
      · have new : tile * blockN + c < ext.qLen seqId := by omega
        rw [isRow]
        funext d
        unfold keyRow loadRow
        by_cases inDim : d < inp.headDim
        · rw [if_pos ⟨masked.2.1, inDim⟩, if_pos ⟨trivial, inDim⟩, (stored _ new _ isHead d inDim).2]
        · rw [if_neg (fun both => inDim both.2), if_neg (fun both => inDim both.2)])
  refine ⟨st.out, ?_, softmax_of_holds ⟨?_, fun d => ?_⟩⟩
  · unfold extendSplitRow
    rw [looped, Option.bind_eq_bind, Option.bind_some, looped']
    rfl
  · rw [holds'.total, sum_attendedKeys, add_assoc]
    simp only [isScore]
  · rw [holds'.sums d, sum_attendedKeys, add_assoc]
    simp only [isScore, isRow]

/-- A launch whose metadata fit: the queries of a request are behind those of the one before, and
its prefix and its queries are in the cache; the new rows, if given, are what the cache holds. -/
structure ExtendInputs.Fits (ext : ExtendInputs R) (inp : AttnInputs R) : Prop where
  ordered : ∀ seqId, ext.qoIndptr seqId ≤ ext.qoIndptr (seqId + 1)
  inCache : ∀ seqId < ext.numSeqs, ext.prefixLens seqId + ext.qLen seqId ≤ inp.kvLen seqId
  inGrid : ∀ seqId < ext.numSeqs, ext.qLen seqId ≤ ext.maxQLen
  stored : ∀ rows, ext.extend = some rows → ∀ seqId < ext.numSeqs, ∀ new < ext.qLen seqId,
    ∀ kvHead < inp.numKvHeads, ∀ d < inp.headDim, rows.1 (ext.qoIndptr seqId + new) kvHead d =
        inp.kCache (inp.kvIndices (inp.kvIndptr seqId + (ext.prefixLens seqId + new))) kvHead d ∧
      rows.2 (ext.qoIndptr seqId + new) kvHead d =
        inp.vCache (inp.kvIndices (inp.kvIndptr seqId + (ext.prefixLens seqId + new))) kvHead d

omit [Field R] [LinearOrder R] [IsStrictOrderedRing R] in
theorem ExtendInputs.Fits.later (fits : ext.Fits inp) {first second : Nat}
    (pre : first < second) : ext.qoIndptr (first + 1) ≤ ext.qoIndptr second :=
  monotone_nat_of_le_succ fits.ordered pre

theorem extendPagedAttention_eq (fits : ext.Fits inp) (positiveM : 0 < blockM)
    (positiveN : 0 < blockN) (out : Nat → Nat → Option (Nat → R)) (isSeq : seqId < ext.numSeqs)
    {new : Nat} (isNew : new < ext.qLen seqId) (isHead : head / inp.group < inp.numKvHeads) :
    ∃ row, inp.extendPagedAttention E ext blockM blockN out (ext.qoIndptr seqId + new) head =
        some row ∧
      ∀ d < inp.headDim, row d = inp.softmaxAttention E (head / inp.group) seqId
        (ext.qoIndptr seqId + new) head (ext.prefixLens seqId + new) d := by
  have place : offsM blockM (new / blockM) (new % blockM) = new := Nat.div_add_mod' new blockM
  have lane := Nat.mod_lt new positiveM
  -- the program of the block of the query
  obtain ⟨row, computed, exact⟩ : ∃ row,
      inp.extendWrites E ext blockM blockN head (seqId, new / blockM) (ext.qoIndptr seqId + new) =
        some (some row) ∧
      ∀ d < inp.headDim, row d = inp.softmaxAttention E (head / inp.group) seqId
        (ext.qoIndptr seqId + new) head (ext.prefixLens seqId + new) d := by
    have laneOf : ext.qoIndptr seqId + new - (ext.qoIndptr seqId + new / blockM * blockM) =
        new % blockM := by
      have := Nat.div_add_mod' new blockM
      omega
    have lt : (ext.qoIndptr seqId + new / blockM * blockM ≤ ext.qoIndptr seqId + new ∧
        ext.qoIndptr seqId + new < ext.qoIndptr seqId + new / blockM * blockM + blockM) ∧
        ext.qoIndptr seqId + new - ext.qoIndptr seqId < ext.qLen seqId := by
      have := Nat.div_add_mod' new blockM
      omega
    unfold extendWrites
    rw [if_pos lt, laneOf]
    cases given : ext.extend with
    | none =>
      obtain ⟨row, computed, exact⟩ := @extendRow_eq R _ _ _ E inp ext blockM blockN seqId head
        (new / blockM) (new % blockM) positiveN lane (by rwa [place]) (fits.inCache seqId isSeq)
      rw [place] at exact
      exact ⟨row, congrArg some computed, exact⟩
    | some rows =>
      obtain ⟨row, computed, exact⟩ := @extendSplitRow_eq R _ _ _ E inp ext blockM blockN seqId
        head (new / blockM) (new % blockM) rows.1 rows.2 positiveN lane (by rwa [place])
        (fits.stored rows given seqId isSeq) isHead
      rw [place] at exact
      exact ⟨row, congrArg some computed, exact⟩
  refine ⟨row, ?_, exact⟩
  refine storeAll_eq ⟨(seqId, new / blockM), ?_, computed⟩ fun program mem other written => ?_
  · have block : new / blockM < cdiv ext.maxQLen blockM :=
      div_lt_cdiv positiveM (isNew.trans_le (fits.inGrid seqId isSeq))
    exact mem_flatMap.mpr ⟨seqId, mem_range.mpr isSeq, mem_map.mpr ⟨_, mem_range.mpr block, rfl⟩⟩
  · -- no other program stores the query
    have lt : (ext.qoIndptr program.1 + program.2 * blockM ≤ ext.qoIndptr seqId + new ∧
        ext.qoIndptr seqId + new < ext.qoIndptr program.1 + program.2 * blockM + blockM) ∧
        ext.qoIndptr seqId + new - ext.qoIndptr program.1 < ext.qLen program.1 := by
      by_contra outside
      unfold extendWrites at written
      rw [if_neg outside] at written
      cases written
    have sameSeq : program.1 = seqId := by
      unfold ExtendInputs.qLen at lt isNew
      rcases Nat.lt_trichotomy program.1 seqId with pre | same | after
      · have := fits.later pre
        omega
      · exact same
      · have := fits.later after
        omega
    have sameBlock : program.2 = new / blockM := by
      rw [sameSeq] at lt
      refine ((Nat.div_eq_iff positiveM).mpr ?_).symm
      omega
    rw [show program = (seqId, new / blockM) from Prod.ext sameSeq sameBlock, computed] at written
    exact (Option.some.inj written).symm

end Extend

end AttnInputs

end FreeToken
