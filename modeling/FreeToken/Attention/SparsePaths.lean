/-
**The queries of the sparse paths.**

* `QsaIndexer.select_names`: the queries of a forward.
-/

import FreeToken.Attention.SparseSelection

namespace FreeToken

open List

variable {σ : Type} [LinearOrder σ] {rows : List Int} (indexer : KpoolIndexer)

section Queries

variable (torch : TorchTopk σ)

/-! ### A decode step -/

theorem DsaIndexer.decode_names (indexer : DsaIndexer) {kvlen : Nat}
    {score : Nat → σ} (started : 0 < kvlen) (live : LiveRows rows (kvlen - 1))
    (nodup : DistinctScores score kvlen) :
    ∃ sel, indexer.decode torch rows kvlen score = some sel ∧
      Names (fun token => rows.getD token (-1))
        (selectedTokens score 1 indexer.indexTopk (kvlen - 1)) sel := by
  have within : kvlen ≤ rows.length := by
    have := (live _ le_rfl).1
    omega
  have width : (dsaDecodeScores score rows.length kvlen).length = rows.length := by
    simp [dsaDecodeScores]
  have packs := indexerSelectDecode_packs torch (min indexer.indexTopk rows.length) within nodup
  rw [Nat.min_assoc, Nat.min_self] at packs
  have last : kvlen - 1 + 1 = kvlen := by omega
  obtain ⟨sel, mapped, names⟩ := @dsaMapRows_names _ _ _ _ (kvlen - 1) _ _ (by rwa [last]) live
  refine ⟨(sel, min kvlen (min indexer.indexTopk rows.length)), ?_, ?_⟩
  · unfold DsaIndexer.decode
    dsimp only
    rw [width, mapped]
    rfl
  · rw [last, selectedTokens_min score (by rw [last, Nat.div_one]; exact within)] at names
    exact names

theorem KpoolIndexer.poolCount_eq (rows : List Int) :
    indexer.poolCount rows = rows.length / indexer.kpool := by
  have pooled := indexer.pooled
  unfold KpoolIndexer.poolCount
  rcases lt_or_ge rows.length (indexer.kpool - 1) with short | long
  · rw [Nat.div_eq_of_lt (by omega), Nat.div_eq_of_lt (by omega)]
  · congr 1
    omega

theorem KpoolIndexer.decode_names {kvlen : Nat}
    {score : Nat → σ} (started : 0 < kvlen) (live : LiveRows rows (kvlen - 1))
    (nodup : DistinctScores score (kvlen / indexer.kpool)) :
    ∃ sel, indexer.decode torch rows kvlen score = some sel ∧
      Names (fun token => rows.getD token (-1))
        (selectedTokens score indexer.kpool indexer.selectK (kvlen - 1)) sel := by
  have within : kvlen / indexer.kpool ≤ indexer.poolCount rows := by
    have := (live _ le_rfl).1
    rw [indexer.poolCount_eq]
    exact Nat.div_le_div_right (by omega)
  have width : (dsaDecodeScores score (indexer.poolCount rows) (kvlen / indexer.kpool)).length =
      indexer.poolCount rows := by
    simp [dsaDecodeScores]
  have packs := indexerSelectDecode_packs torch (min indexer.selectK (indexer.poolCount rows))
    within nodup
  rw [min_assoc, min_self] at packs
  have last : kvlen - 1 + 1 = kvlen := by omega
  obtain ⟨sel, expanded, names⟩ := @expandAndTail_names _ _ _ _ _ (kvlen - 1) indexer.pooled _ _
    (by rwa [last]) live
  refine ⟨sel, ?_, ?_⟩
  · unfold KpoolIndexer.decode
    dsimp only
    rw [width, expanded]
  · rw [selectedTokens_min score (by rwa [last])] at names
    exact names

/-! ### The queries of a request -/

theorem DsaIndexer.selectPrefill_names (indexer : DsaIndexer) {chunk : Nat} (pos : 0 < chunk)
    {score : Nat → Nat → σ} {start count : Nat}
    (live : ∀ s < count, LiveRows rows (start + s))
    (nodup : ∀ s < count, DistinctScores (score s) (start + s + 1)) :
    ∃ sels : Nat → RowSelection,
      indexer.selectPrefill torch chunk score rows (List.range' start count) start =
        some ((List.range count).map sels) ∧
      ∀ s < count, Names (fun token => rows.getD token (-1))
        (selectedTokens (score s) 1 indexer.indexTopk (start + s)) (sels s) := by
  have each : ∀ s < count, ∃ sel, dsaMapRows (indexerPicks torch (score s) rows.length (start + s) 1
        (min indexer.indexTopk rows.length)) rows = some sel ∧
      Names (fun token => rows.getD token (-1))
        (selectedTokens (score s) 1 indexer.indexTopk (start + s))
        (sel, min (start + s + 1) (min indexer.indexTopk rows.length)) := by
    intro s lt
    have within : (start + s + 1) / 1 ≤ rows.length := by
      have := (live s lt _ le_rfl).1
      rw [Nat.div_one]
      omega
    have packs := indexerPicks_packs torch (min indexer.indexTopk rows.length) within
      (by rw [Nat.div_one]; exact nodup s lt)
    rw [Nat.min_assoc, Nat.min_self, Nat.div_one] at packs
    obtain ⟨sel, mapped, names⟩ := dsaMapRows_names packs (live s lt)
    rw [selectedTokens_min _ within] at names
    exact ⟨sel, mapped, names⟩
  choose! sel exact using each
  refine ⟨fun s => (sel s, min (start + s + 1) (min indexer.indexTopk rows.length)), ?_,
    fun s lt => (exact s lt).2⟩
  obtain ⟨chunks, passed, flat⟩ := @strides_mapM (List Int) (List Int) count chunk pos
    (fun s => indexerPicks torch (score s) rows.length (start + s) 1
      (min indexer.indexTopk rows.length)) (fun picks => dsaMapRows picks rows) sel
    fun s lt => (exact s lt).1
  unfold DsaIndexer.selectPrefill
  simp only [indexerSelectPrefill_eq, length_range', Nat.add_assoc]
  rw [passed, Option.bind_eq_bind, Option.bind_some, flat, range'_eq_map_range, map_map, zip_map']
  rfl

theorem slice_range' (start count : Nat) {first stop : Nat} (lt : stop ≤ count) :
    ((List.range' start count).take stop).drop first =
      (List.range (stop - first)).map fun i => start + (first + i) := by
  rw [take_range'_of_length_ge lt, drop_range', range'_eq_map_range, mul_one]
  simp only [add_assoc]

theorem packsBest_none (score : Nat → σ) (k : Nat) :
    PacksBest score 0 k (List.replicate k (-1)) := by
  refine ⟨[], nodup_nil, by simp, ?_, by simp⟩
  simp [bestBelow]

theorem KpoolIndexer.selectPrefill_names {chunk : Nat}
    (pos : 0 < chunk) {score : Nat → Nat → σ} {start count : Nat}
    (live : ∀ s < count, LiveRows rows (start + s))
    (nodup : ∀ s < count, DistinctScores (score s) ((start + s + 1) / indexer.kpool)) :
    ∃ sels : Nat → RowSelection,
      indexer.selectPrefill torch chunk score rows (List.range' start count) start =
        some ((List.range count).map sels) ∧
      ∀ s < count, Names (fun token => rows.getD token (-1))
        (selectedTokens (score s) indexer.kpool indexer.selectK (start + s)) (sels s) := by
  have kSel_eq : ∀ s < count, (start + s + 1) / indexer.kpool ≤ rows.length / indexer.kpool := by
    intro s lt
    have := (live s lt _ le_rfl).1
    exact Nat.div_le_div_right (by omega)
  by_cases none : rows.length / indexer.kpool = 0
  · -- no group of the request is complete
    have each : ∀ s < count, ∃ sel,
        expandAndTail indexer.kpool (replicate (min indexer.selectK 1) (-1)) rows (start + s) =
          some sel ∧
        Names (fun token => rows.getD token (-1))
          (selectedTokens (score s) indexer.kpool indexer.selectK (start + s)) sel := by
      intro s lt
      have closed : (start + s + 1) / indexer.kpool = 0 := by
        have := kSel_eq s lt
        rw [none] at this
        exact Nat.le_zero.mp this
      have packs := packsBest_none (score s) (min indexer.selectK 1)
      rw [← closed] at packs
      obtain ⟨sel, expanded, names⟩ := expandAndTail_names indexer.pooled packs (live s lt)
      rw [selectedTokens_min _ (by omega)] at names
      exact ⟨sel, expanded, names⟩
    choose! sel exact using each
    refine ⟨sel, ?_, fun s lt => (exact s lt).2⟩
    unfold KpoolIndexer.selectPrefill
    rw [if_pos none, none, range'_eq_map_range, mapM_map]
    refine mapM_some fun s lt => ?_
    exact (exact s (mem_range.mp lt)).1
  · have each : ∀ s < count, ∃ sel,
        expandAndTail indexer.kpool (indexerPicks torch (score s) (rows.length / indexer.kpool)
          (start + s) indexer.kpool (min indexer.selectK (rows.length / indexer.kpool))) rows
          (start + s) = some sel ∧
        Names (fun token => rows.getD token (-1))
          (selectedTokens (score s) indexer.kpool indexer.selectK (start + s)) sel := by
      intro s lt
      have packs := indexerPicks_packs torch (min indexer.selectK (rows.length / indexer.kpool))
        (kSel_eq s lt) (nodup s lt)
      rw [min_assoc, min_self] at packs
      obtain ⟨sel, expanded, names⟩ := expandAndTail_names indexer.pooled packs (live s lt)
      rw [selectedTokens_min _ (kSel_eq s lt)] at names
      exact ⟨sel, expanded, names⟩
    choose! sel exact using each
    refine ⟨sel, ?_, fun s lt => (exact s lt).2⟩
    have each' : ∀ s < count, expandAndTail indexer.kpool
        (indexerPicks torch (score s) (rows.length / indexer.kpool) (start + s) indexer.kpool
          (min indexer.selectK (rows.length / indexer.kpool))) rows (start + s) = some (sel s) :=
      fun s lt => (exact s lt).1
    obtain ⟨chunks, passed, flat⟩ := @strides_mapM (List Int × Nat) RowSelection count chunk pos
      (fun s => (indexerPicks torch (score s) (rows.length / indexer.kpool) (start + s)
        indexer.kpool (min indexer.selectK (rows.length / indexer.kpool)), start + s))
      (fun query => expandAndTail indexer.kpool query.1 rows query.2) sel each'
    have widest : max (rows.length / indexer.kpool) 1 = rows.length / indexer.kpool :=
      max_eq_left (pos_of_ne_zero none)
    unfold KpoolIndexer.selectPrefill
    rw [if_neg none, widest, indexer.poolCount_eq, length_range']
    have same : ((strides count chunk).mapM fun span =>
        ((indexerSelectPrefill torch (fun s => score (span.1 + s)) (rows.length / indexer.kpool)
            (start + span.1) (span.2 - span.1) indexer.kpool
            (min indexer.selectK (rows.length / indexer.kpool)) 0).zip
          (((range' start count).take span.2).drop span.1)).mapM fun query =>
            expandAndTail indexer.kpool query.1 rows query.2) = some chunks := by
      rw [← passed]
      refine mapM_congr fun span mem => ?_
      have lt := ((strides_tiles count (show 1 ≤ chunk from pos)).within mem).2.2
      rw [indexerSelectPrefill_eq, slice_range' start count lt, zip_map']
      simp only [add_assoc]
    rw [same, Option.bind_eq_bind, Option.bind_some, flat]
    rfl

end Queries

/-! ### The blocks with a tail -/

section Blocks

variable (indexer : QsaIndexer) (blockTopk : BlockTopk σ)

theorem QsaIndexer.visible_le_columns {width seqLen : Nat} (fits : seqLen ≤ width)
    (position : Nat) : qsaVisible indexer.ratio position seqLen ≤ indexer.columns width := by
  have pos : 0 < indexer.pageSize := mul_pos indexer.paged (by have := indexer.grouped; omega)
  have pages := Nat.lt_mul_div_succ (width + indexer.pageSize - 1) pos
  rw [Nat.mul_succ] at pages
  have covered : seqLen ≤ indexer.ratio * indexer.columns width := by
    unfold QsaIndexer.columns
    rw [mul_left_comm, ← mul_comm indexer.cmpPageSize, mul_comm _ (_ * _)]
    show seqLen ≤ indexer.pageSize * _
    omega
  exact (min_le_right _ _).trans (Nat.div_le_of_le_mul covered)

theorem QsaIndexer.selectRow_names (stale : Nat → WithBot σ) {width : Nat} {query : QsaQuery σ}
    (lt : query.position < query.seqLen) (fits : query.seqLen ≤ width)
    (nodup : DistinctScores query.score ((query.position + 1) / indexer.ratio)) :
    Names (fun token : Nat => (token : Int))
      (selectedTokens query.score indexer.ratio indexer.blockCount query.position)
      (indexer.selectRow blockTopk stale width query, indexer.selectWidth) := by
  have visible : qsaVisible indexer.ratio query.position query.seqLen =
      (query.position + 1) / indexer.ratio := Nat.min_eq_left (Nat.div_le_div_right lt)
  have within := indexer.visible_le_columns fits query.position
  rw [visible] at within
  have length : (qsaLogits query.score stale (indexer.columns width)
      ((query.position + 1) / indexer.ratio)).length = indexer.columns width := by
    simp [qsaLogits]
  have packs := blockTopk.packs (qsaLogits query.score stale (indexer.columns width)
      ((query.position + 1) / indexer.ratio)) ((query.position + 1) / indexer.ratio)
    indexer.blockCount query.score (by rwa [length]) (fun i isLive => by
      unfold qsaLogits
      rw [scoreAt_range, if_pos (by omega), if_pos isLive]) nodup
  have names := expandQsaIndices_names indexer.grouped lt packs
  have budget : indexer.blockCount * indexer.ratio = indexer.tokenTopk :=
    Nat.div_mul_cancel indexer.whole
  unfold QsaIndexer.selectRow QsaIndexer.selectWidth
  rw [visible]
  rwa [budget] at names

theorem QsaIndexer.select_eq {chunk : Nat} (pos : 0 < chunk) (stale : Nat → Nat → WithBot σ)
    (width : Nat) (queries : List (QsaQuery σ)) :
    indexer.select blockTopk chunk stale width queries =
      queries.mapIdx fun i query => indexer.selectRow blockTopk (stale i) width query := by
  rcases queries with _ | ⟨first, queries⟩
  · simp [QsaIndexer.select, strides, Nat.div_eq_of_lt (by omega : chunk - 1 < chunk)]
  · have tiles := strides_tiles (first :: queries).length (show 1 ≤ chunk from pos)
    have passed := tiles.flatMap_range fun i =>
      indexer.selectRow blockTopk (stale i) width ((first :: queries).getD i first)
    have whole : (first :: queries).mapIdx (fun i query =>
        indexer.selectRow blockTopk (stale i) width query) =
        (range ((first :: queries).length - 0)).map fun i =>
          indexer.selectRow blockTopk (stale (0 + i)) width ((first :: queries).getD (0 + i) first) := by
      apply ext_getElem
      · simp
      · intro i lt _
        rw [length_mapIdx] at lt
        rw [getElem_mapIdx, getElem_map, getElem_range, zero_add, getD_eq_getElem _ _ lt]
    rw [whole, ← passed]
    refine flatMap_congr fun span mem => ?_
    obtain ⟨-, ordered, upper⟩ := tiles.within mem
    apply ext_getElem
    · simp only [length_mapIdx, length_drop, length_take, length_map, length_range]
      omega
    · intro i lt _
      have bound : span.1 + i < (first :: queries).length := by
        rw [length_mapIdx, length_drop, length_take] at lt
        omega
      rw [getElem_mapIdx, getElem_drop, getElem_take, getElem_map,
        getElem_range, getD_eq_getElem _ _ bound]

end Blocks

end FreeToken
