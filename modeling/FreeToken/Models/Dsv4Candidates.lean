/-
**Which candidates a query of the DeepSeek-V4 attention gets.**
-/

import FreeToken.Models.Dsv4Attention

namespace FreeToken

open Dsv4PagedPool List

variable (layer : Dsv4Layer) (pool : Dsv4PagedPool)

namespace Dsv4Layer

/-! ### The window half -/

def windowPicks (row : List Int) (windowSize pos : Nat) : List Nat :=
  (windowPositions windowSize pos).map fun q => (pool.slotOf row q).toNat

def blockPicks (row : List Int) (ratio pos : Nat) : List Nat :=
  (List.range ((pos + 1) / ratio)).map fun b => (row.getD (b * ratio) (-1)).toNat / ratio

theorem windowPicks_eq (row : List Int) (windowSize pos : Nat) :
    windowPicks pool row windowSize pos = (List.range (min (pos + 1) windowSize)).map fun c =>
      (pool.slotOf row (pos + 1 - windowSize + c)).toNat := by
  unfold windowPicks windowPositions
  rw [range'_eq_map_range, map_map]
  rfl

section Segment

variable {layer : Dsv4Layer} {pool : Dsv4PagedPool} {seg : Dsv4Segment} {row : List Int}
  (stored : pool.fullLocMap[seg.tableIdx]? = some row) (positive : 0 < layer.windowSize)
  (nonempty : 0 < seg.n)
  (placed : Placed pool row (seg.startPos + 1 - layer.windowSize)
    (seg.startPos + seg.n))

include stored positive nonempty placed

theorem prefillWindow_extend (hit : seg.startPos ≠ 0) : layer.prefillWindow pool seg =
      some ⟨layer.windowSize, (List.range seg.n).map fun i =>
        maskedRow (windowPicks pool row layer.windowSize (seg.startPos + i))
          layer.windowSize⟩ := by
  obtain ⟨slots, isSlots, -, -⟩ := windowSlotsOf_spec stored seg.startPos placed.inside
  obtain ⟨lut, isLut, size, found⟩ :=
    windowSlotsOf_spec stored (seg.startPos + 1 - layer.windowSize) placed.inside
  have each : ∀ i ∈ range seg.n, winColsToGlobal (extendWinCols layer.windowSize
      seg.startPos (seg.startPos + 1 - layer.windowSize) i) lut =
        some (maskedRow (windowPicks pool row layer.windowSize (seg.startPos + i))
          layer.windowSize) := by
    intro i mem
    have within := mem_range.mp mem
    rw [windowPicks_eq]
    refine winColsToGlobal_ramp
      (fun c => seg.startPos + i + 1 - layer.windowSize + c - (seg.startPos + 1 - layer.windowSize))
      (min_le_right _ _) ?_ (fun c below => ?_) (fun c below => ?_) fun c above upper => ?_
    · exact length_pos_iff.mp (by omega)
    · rw [if_neg (by omega)]
      omega
    · rw [found _ (by omega)]
      have same : seg.startPos + 1 - layer.windowSize +
          (seg.startPos + i + 1 - layer.windowSize + c - (seg.startPos + 1 - layer.windowSize)) =
          seg.startPos + i + 1 - layer.windowSize + c := by omega
      rw [same]
      exact placed.windowSlot (by omega) (by omega)
    · rw [if_pos (by omega)]
  unfold prefillWindow
  dsimp only
  rw [isSlots, Option.bind_eq_bind, Option.bind_some, if_neg hit, isLut, Option.bind_eq_bind,
    Option.bind_some, mapM_map]
  exact congrArg (fun rows : Option (List (List Int)) => rows >>= fun rows =>
    pure (PickTable.mk layer.windowSize rows)) (mapM_some each)

theorem prefillWindow_cold (cold : seg.startPos = 0) (single : layer.windowSize = 1 → seg.n = 1) :
    layer.prefillWindow pool seg = some ⟨min seg.n layer.windowSize, (List.range seg.n).map fun i =>
        maskedRow (windowPicks pool row layer.windowSize (seg.startPos + i))
          (min seg.n layer.windowSize)⟩ := by
  obtain ⟨lut, isLut, size, found⟩ := windowSlotsOf_spec stored seg.startPos
    placed.inside
  rw [cold, zero_add] at isLut size found placed
  have each : ∀ i ∈ range seg.n,
      winColsToGlobal (coldWinCols layer.windowSize (min seg.n layer.windowSize) i) lut =
        some (maskedRow (windowPicks pool row layer.windowSize i)
          (min seg.n layer.windowSize)) := by
    intro i mem
    have within := mem_range.mp mem
    rw [windowPicks_eq]
    refine winColsToGlobal_ramp (fun c => i + 1 - layer.windowSize + c) (by omega) ?_
      (fun c below => ?_) (fun c below => ?_) fun c above upper => ?_
    · exact length_pos_iff.mp (by omega)
    · rw [if_neg (by omega)]
      omega
    · rw [found _ (by omega), zero_add]
      exact placed.windowSlot (by omega) (by omega)
    · rw [if_pos (by omega)]
  have table : getWindowTopkIdxs layer.windowSize seg.n 0 = ⟨min seg.n layer.windowSize,
        (range seg.n).map (coldWinCols layer.windowSize (min seg.n layer.windowSize))⟩
      := by
    unfold getWindowTopkIdxs
    by_cases one : layer.windowSize = 1
    · rw [one, single one]
      rfl
    · rw [if_neg (by omega), if_neg (lt_irrefl 0)]
  unfold prefillWindow
  dsimp only
  rw [cold, zero_add, isLut, Option.bind_eq_bind, Option.bind_some, if_pos rfl, table]
  rw [mapM_map]
  simp only [zero_add]
  exact congrArg (fun rows : Option (List (List Int)) => rows >>= fun rows =>
    pure (PickTable.mk (min seg.n layer.windowSize) rows)) (mapM_some each)

omit positive in
/-- Where the window half falls short. -/
theorem prefillWindow_one (cold : seg.startPos = 0) (one : layer.windowSize = 1) :
    ∃ table, layer.prefillWindow pool seg = some table ∧ table.rows.length = 1 := by
  obtain ⟨lut, isLut, size, found⟩ := windowSlotsOf_spec stored seg.startPos
    placed.inside
  rw [cold, zero_add] at isLut size
  have first : lut[0]? = some (lut.getD 0 (-1)) := by
    rw [getD_eq_getElem _ _ (by omega)]
    exact getElem?_eq_getElem _
  refine ⟨⟨1, [[lut.getD 0 (-1)]]⟩, ?_, rfl⟩
  unfold prefillWindow
  dsimp only
  rw [cold, zero_add, isLut, Option.bind_eq_bind, Option.bind_some, if_pos rfl, one]
  show ((winColsToGlobal [0] lut >>= fun row => _) >>= _) = _
  unfold winColsToGlobal gatherMasked
  rw [mapM_cons]
  have lookup : tensorIndex lut (max 0 0) = some (lut.getD 0 (-1)) := first
  rw [lookup]
  rfl

omit stored positive in
theorem prefillBlocks_eq (compressed : 0 < layer.compressRatio) (plain : layer.indexer = none) :
    (layer.prefillBlocks seg).width = (seg.startPos + seg.n) / layer.compressRatio ∧
    (layer.prefillBlocks seg).rows.mapM (blocksToGlobal row layer.compressRatio) =
      some ((List.range seg.n).map fun i =>
        maskedRow (blockPicks row layer.compressRatio (seg.startPos + i))
          ((seg.startPos + seg.n) / layer.compressRatio)) := by
  have lt := placed.inside
  have ramp : ∀ i < seg.n, ∀ block : Nat → Int,
      (∀ b, block b = if b < (seg.startPos + i + 1) / layer.compressRatio then (b : Int)
        else -1) →
      blocksToGlobal row layer.compressRatio
          ((range ((seg.startPos + seg.n) / layer.compressRatio)).map block) =
        some (maskedRow (blockPicks row layer.compressRatio (seg.startPos + i))
          ((seg.startPos + seg.n) / layer.compressRatio)) := by
    intro i within block isBlock
    refine blocksToGlobal_ramp (fun b => (row.getD (b * layer.compressRatio) (-1)).toNat)
      (Nat.div_le_div_right (by omega)) (length_pos_iff.mp (by omega)) (fun b below => ?_)
      (fun b below => ?_) fun b above upper => ?_
    · rw [isBlock, if_pos below]
    · have early := (Nat.lt_div_iff_mul_lt compressed).mp below
      exact placed.stored (by omega)
    · rw [isBlock, if_neg (by omega)]
  unfold prefillBlocks
  rw [plain]
  by_cases cold : seg.startPos = 0
  · rw [if_pos cold]
    unfold getCompressTopkIdxs
    rw [if_neg (lt_irrefl 0), cold]
    rw [cold] at ramp
    simp only [Nat.zero_add] at ramp ⊢
    refine ⟨trivial, ?_⟩
    rw [mapM_map]
    refine mapM_some fun i mem => ramp i (mem_range.mp mem) _ fun b => ?_
    by_cases below : b < (i + 1) / layer.compressRatio
    · rw [if_neg (by omega), if_pos below]
    · rw [if_pos (by omega), if_neg below]
  · rw [if_neg cold]
    unfold compressTopkExtend
    refine ⟨rfl, ?_⟩
    rw [mapM_map]
    exact mapM_some fun i mem => ramp i (mem_range.mp mem) _ fun b => rfl

omit stored positive in
theorem prefillBlocks_some (compressed : 0 < layer.compressRatio) :
    ∃ rows, (layer.prefillBlocks seg).rows.mapM (blocksToGlobal row layer.compressRatio) =
      some rows ∧ rows.length = seg.n := by
  cases isPlain : layer.indexer with
  | none => exact ⟨_, (prefillBlocks_eq nonempty placed compressed isPlain).2, by simp⟩
  | some indexer =>
    have lt := placed.inside
    unfold prefillBlocks
    rw [isPlain]
    have each : ∀ cols ∈ (indexer.prefill seg.tableIdx seg.startPos seg.n).rows,
        blocksToGlobal row layer.compressRatio cols =
          some ((blocksToGlobal row layer.compressRatio cols).getD []) := by
      intro cols mem
      obtain ⟨-, range⟩ := indexer.prefillBlocks _ _ _ cols mem
      obtain ⟨rows, done, -⟩ := @blocksToGlobal_some row layer.compressRatio cols
        fun block isBlock => by
          obtain ⟨low, high⟩ := range block isBlock
          by_cases mask : block < 0
          · rw [max_eq_right (by omega), Int.toNat_zero, Nat.zero_mul]
            omega
          · have below : block.toNat < (seg.startPos + seg.n) / layer.compressRatio := by omega
            have early := (Nat.lt_div_iff_mul_lt compressed).mp below
            rw [max_eq_left (by omega)]
            omega
      rw [done]
      rfl
    refine ⟨_, mapM_some each, ?_⟩
    rw [length_map]
    exact indexer.prefillRows _ _ _

end Segment

/-! ### A batch -/

/-- **What the columns of a query should be.** The first `nWindow` hold the slot of each position of
its window once; behind them come, in a layer without indexer, the rows of the complete blocks in
order. All other columns are `-1`. -/
structure QueryExact (layer : Dsv4Layer) (pool : Dsv4PagedPool) (row : List Int) (pos nWindow : Nat)
    (cols : List Int) : Prop where
  window : ∃ masks, (cols.take nWindow).Perm
    ((windowPositions layer.windowSize pos).map (pool.slotOf row) ++ List.replicate masks (-1))
  compressed : 0 < layer.compressRatio → layer.indexer = none → (∃ masks, cols.drop nWindow =
      (List.range ((pos + 1) / layer.compressRatio)).map (blockRowOf row layer.compressRatio) ++
        List.replicate masks (-1)) ∧
    ∀ b < (pos + 1) / layer.compressRatio, 0 ≤ blockRowOf row layer.compressRatio b
  uncompressed : layer.compressRatio = 0 → cols.drop nWindow = []

structure SegmentPlaced (layer : Dsv4Layer) (pool : Dsv4PagedPool) (seg : Dsv4Segment)
    (row : List Int) : Prop where
  stored : pool.fullLocMap[seg.tableIdx]? = some row
  nonempty : 0 < seg.n
  placed : Placed pool row (seg.startPos + 1 - layer.windowSize)
    (seg.startPos + seg.n)

def PrefillExact (segs : List Dsv4Segment) : Prop :=
  ∃ table nWindow, layer.forwardRagged pool segs = some (table, nWindow) ∧
    ∀ seg ∈ segs, ∀ row, pool.fullLocMap[seg.tableIdx]? = some row →
      ∀ i < seg.n, ∃ cols, table.rows[seg.offset + i]? = some cols ∧
        QueryExact layer pool row (seg.startPos + i) nWindow cols

def windowWidth (seg : Dsv4Segment) : Nat :=
  if seg.startPos = 0 then min seg.n layer.windowSize else layer.windowSize

def Single (seg : Dsv4Segment) : Prop := layer.windowSize = 1 → seg.startPos = 0 → seg.n = 1

structure SegmentPart (layer : Dsv4Layer) (pool : Dsv4PagedPool) (seg : Dsv4Segment)
    (row : List Int) (part : PickTable × Option PickTable) : Prop where
  queries : ¬layer.Single seg → part.1.rows.length = 1
  window : layer.Single seg → part.1 = ⟨layer.windowWidth seg, (List.range seg.n).map fun i =>
      maskedRow (windowPicks pool row layer.windowSize (seg.startPos + i))
        (layer.windowWidth seg)⟩
  uncompressed : layer.compressRatio = 0 → part.2 = none
  compressed : 0 < layer.compressRatio → ∃ cmp, part.2 = some cmp ∧ cmp.rows.length = seg.n ∧
    (layer.indexer = none → cmp =
      ⟨(seg.startPos + seg.n) / layer.compressRatio, (List.range seg.n).map fun i =>
        maskedRow (blockPicks row layer.compressRatio (seg.startPos + i))
          ((seg.startPos + seg.n) / layer.compressRatio)⟩)

section Parts

variable {layer : Dsv4Layer} {pool : Dsv4PagedPool} {seg : Dsv4Segment} {row : List Int}
  (positive : 0 < layer.windowSize) (here : layer.SegmentPlaced pool seg row)

include positive here

theorem prefillWindow_spec : ∃ table, layer.prefillWindow pool seg = some table ∧
    (¬layer.Single seg → table.rows.length = 1) ∧
    (layer.Single seg → table = ⟨layer.windowWidth seg, (List.range seg.n).map fun i =>
        maskedRow (windowPicks pool row layer.windowSize (seg.startPos + i))
          (layer.windowWidth seg)⟩) := by
  obtain ⟨stored, nonempty, placed⟩ := here
  unfold windowWidth
  by_cases cold : seg.startPos = 0
  · by_cases single : layer.Single seg
    · refine ⟨_, prefillWindow_cold stored positive nonempty placed cold
        fun one => single one cold, fun several => absurd single several, fun _ => ?_⟩
      rw [if_pos cold]
    · have one : layer.windowSize = 1 := by
        by_contra wide
        exact single fun isOne => absurd isOne wide
      obtain ⟨table, done, size⟩ := prefillWindow_one stored nonempty placed cold one
      exact ⟨table, done, fun _ => size, fun isSingle => absurd isSingle single⟩
  · refine ⟨_, prefillWindow_extend stored positive nonempty placed cold,
      fun several => absurd (fun _ isCold => absurd isCold cold) several, fun _ => ?_⟩
    rw [if_neg cold]

theorem prefillSegment_spec : ∃ part, layer.prefillSegment pool seg = some part ∧
    layer.SegmentPart pool seg row part := by
  obtain ⟨table, done, queries, window⟩ := prefillWindow_spec positive here
  obtain ⟨stored, nonempty, placed⟩ := here
  unfold prefillSegment
  rw [done, Option.bind_eq_bind, Option.bind_some]
  rcases Nat.eq_zero_or_pos layer.compressRatio with none_ | compressed
  · rw [if_pos none_]
    exact ⟨_, rfl, queries, window, fun _ => rfl, fun some_ => absurd none_ some_.ne'⟩
  · obtain ⟨rows, cmp, size⟩ := prefillBlocks_some nonempty placed compressed
    rw [if_neg compressed.ne']
    rw [stored, Option.bind_eq_bind, Option.bind_some, cmp]
    refine ⟨_, rfl, queries, window, fun none_ => absurd none_ compressed.ne',
      fun _ => ⟨_, rfl, size, fun plain => ?_⟩⟩
    obtain ⟨width, known⟩ := prefillBlocks_eq nonempty placed compressed plain
    rw [width, Option.some.inj (cmp.symm.trans known)]

end Parts

end Dsv4Layer

end FreeToken
