/-
**The addressing of the DeepSeek-V4 attention.**

A page table gives each position of a request its place in the full pool; `full_to_window` gives a
place of the full pool its window slot, and block `b` of a layer with ratio `r` lies at row
`full_loc(b * r) // r`.
-/

import FreeToken.Lib.Tensor
import Mathlib.Data.List.Perm.Basic
import Mathlib.Data.List.Range
import Mathlib.Data.List.NodupEquivFin

namespace FreeToken

open List

/-- `DSV4PagedKVCache`, as far as positions are looked up in it. The row of `full_to_window` behind
the last place is there for the place `-1`. -/
structure Dsv4PagedPool where
  /-- `sizes.full_token`. -/
  fullToken : Nat
  fullToWindow : List Int
  /-- The page table: a row for each request. -/
  fullLocMap : List (List Int)
  sized : fullToWindow.length = fullToken + 1
  places : ∀ row ∈ fullLocMap, ∀ loc ∈ row, -1 ≤ loc ∧ loc < fullToken

namespace Dsv4PagedPool

variable (pool : Dsv4PagedPool)

def translateFullToWindow (fullLoc : Int) : Option Int := tensorIndex pool.fullToWindow fullLoc

def cmpRow (fullLoc : Int) (ratio : Nat) : Int := fullLoc / ratio

def windowSlot (row : List Int) (position : Int) : Option Int :=
  tensorIndex row position >>= pool.translateFullToWindow

/-- How columns become slots. -/
def windowSlotsOf (tableIdx low high : Nat) : Option (List Int) := do
  let row ← pool.fullLocMap[tableIdx]?
  ((row.take high).drop low).mapM pool.translateFullToWindow

def fullSnapshot (tableRows : List Nat) : Option (List (List Int)) :=
  tableRows.mapM fun tableIdx => pool.fullLocMap[tableIdx]?

def stageRow (old row : List Int) : List Int := row.take old.length ++ old.drop row.length

/-- The rows of the page table that a decode batch reads. -/
def pointToCapture (captured : List (List Int)) (tableRows : List Nat) :
    Option (List (List Int)) := do
  let src ← pool.fullSnapshot tableRows
  if captured.length < src.length then none
  else pure (captured.zipWith stageRow src)

/-- What `window_ctx` returns for a row. -/
structure WindowCtx where
  windowSlot : Int
  prevWindowSlot : Int
  windowSlotsTopk : List Int
  deriving DecidableEq, Repr

/-- `window_ctx` of one row: ring column `j` holds the latest position that is `j` modulo the
window. -/
def windowCtx (windowSize : Nat) (row : List Int) (pos : Nat) : Option WindowCtx := do
  let windowSlot ← pool.windowSlot row pos
  let prevWindowSlot ← pool.windowSlot row (max ((pos : Int) - 1) 0)
  let windowSlotsTopk ← (List.range windowSize).mapM fun (j : Nat) => do
    let p : Int := pos - ((pos : Int) - j) % windowSize
    let ws ← pool.windowSlot row (max p 0)
    let ring := if 0 ≤ p then ws else -1
    pure (if j ≤ pos then ring else -1)
  pure { windowSlot, prevWindowSlot, windowSlotsTopk }

end Dsv4PagedPool

/-- Window columns (or `-1`) of a query as slots. -/
def winColsToGlobal (winCols slotLut : List Int) : Option (List Int) := gatherMasked slotLut winCols

/-- Block indices (or `-1`) of a query as rows of the compressed pool. -/
def blocksToGlobal (row : List Int) (ratio : Nat) (blocks : List Int) : Option (List Int) :=
  blocks.mapM fun block => do
    let fullAt ← tensorIndex row (max block 0 * ratio)
    pure (if block < 0 then -1 else Dsv4PagedPool.cmpRow fullAt ratio)

/-! ### What a query should see -/

/-- The positions `max(0, p - win + 1) .. p`. -/
def windowPositions (windowSize pos : Nat) : List Nat :=
  List.range' (pos + 1 - windowSize) (min (pos + 1) windowSize)

/-- Some picks, and `-1` in the columns behind them. -/
def maskedRow (picks : List Nat) (width : Nat) : List Int :=
  (picks.map fun pick : Nat => (pick : Int)) ++ List.replicate (width - picks.length) (-1)

namespace Dsv4PagedPool

section Lookups

variable {pool : Dsv4PagedPool} {row : List Int} {tableIdx : Nat}

theorem translate_isSome {loc : Int} (low : -1 ≤ loc) (high : loc < pool.fullToken) :
    (pool.translateFullToWindow loc).isSome = true := by
  have sized := pool.sized
  unfold translateFullToWindow tensorIndex
  split
  · rw [if_pos (by omega), getElem?_eq_getElem (by omega)]
    rfl
  · rw [getElem?_eq_getElem (by omega)]
    rfl

theorem translate_row (stored : pool.fullLocMap[tableIdx]? = some row) {loc : Int}
    (mem : loc ∈ row) :
    pool.translateFullToWindow loc = some ((pool.translateFullToWindow loc).getD 0) := by
  have place := pool.places row (mem_of_getElem? stored) loc mem
  obtain ⟨slot, found⟩ := Option.isSome_iff_exists.mp (pool.translate_isSome place.1 place.2)
  rw [found]
  rfl

theorem windowSlotsOf_spec (stored : pool.fullLocMap[tableIdx]? = some row) (low : Nat)
    {high : Nat} (lt : high ≤ row.length) :
    ∃ slots, pool.windowSlotsOf tableIdx low high = some slots ∧ slots.length = high - low ∧
      ∀ place < high - low, slots[place]? = pool.windowSlot row (low + place : Nat) := by
  refine ⟨((row.take high).drop low).map fun loc => (pool.translateFullToWindow loc).getD 0,
    ?_, ?_, fun place within => ?_⟩
  · unfold windowSlotsOf
    rw [stored]
    exact mapM_some fun loc mem => translate_row stored (mem_of_mem_take (mem_of_mem_drop mem))
  · rw [length_map, length_drop, length_take, min_eq_left lt]
  · have here : low + place < row.length := by omega
    unfold windowSlot
    rw [getElem?_map, getElem?_drop, getElem?_take, if_pos (by omega),
      tensorIndex_natCast, getElem?_eq_getElem here]
    exact (translate_row stored (getElem_mem here)).symm

end Lookups

end Dsv4PagedPool

/-! ### Positions that have a place -/

namespace Dsv4PagedPool

/-- The window slot of a position, or `-1`. -/
def slotOf (pool : Dsv4PagedPool) (row : List Int) (position : Nat) : Int :=
  (pool.windowSlot row position).getD (-1)

/-- The row of a compressed block, or `-1`. -/
def blockRowOf (row : List Int) (ratio block : Nat) : Int :=
  cmpRow (row.getD (block * ratio) (-1)) ratio

/-- A row of the page table that holds all positions below `high`; those from `low` on are in the
window pool. -/
structure Placed (pool : Dsv4PagedPool) (row : List Int) (low high : Nat) : Prop where
  history : ∀ q < high, 0 ≤ row.getD q (-1)
  window : ∀ q, low ≤ q → q < high → 0 ≤ pool.slotOf row q

namespace Placed

variable {pool : Dsv4PagedPool} {row : List Int} {low high : Nat}
  (placed : Placed pool row low high)

include placed

theorem inside : high ≤ row.length := by
  by_contra beyond
  have last := placed.history row.length (not_le.mp beyond)
  rw [getD_eq_default _ _ le_rfl] at last
  exact absurd last (by decide)

theorem windowSlot {q : Nat} (above : low ≤ q) (below : q < high) :
    pool.windowSlot row q = some ((pool.slotOf row q).toNat : Int) := by
  have here := placed.window q above below
  rw [Int.toNat_of_nonneg here]
  unfold slotOf at here ⊢
  cases found : pool.windowSlot row q with
  | none =>
    rw [found] at here
    exact absurd here (by decide)
  | some slot => rfl

theorem stored {q : Nat} (below : q < high) : row[q]? = some ((row.getD q (-1)).toNat : Int) := by
  have within : q < row.length := lt_of_lt_of_le below placed.inside
  rw [Int.toNat_of_nonneg (placed.history q below), getD_eq_getElem _ _ within]
  exact getElem?_eq_getElem within

end Placed

end Dsv4PagedPool

/-! ### Columns become slots -/

section Columns

variable {row slotLut : List Int} {width bound : Nat}

theorem winColsToGlobal_ramp {col : Nat → Int} (place : Nat → Nat) {slot : Nat → Nat}
    (within : bound ≤ width) (nonempty : slotLut ≠ []) (valid : ∀ c < bound, col c = place c)
    (found : ∀ c < bound, slotLut[place c]? = some (slot c : Int))
    (mask : ∀ c, bound ≤ c → c < width → col c = -1) :
    winColsToGlobal ((List.range width).map col) slotLut =
      some (maskedRow ((List.range bound).map slot) width) := by
  have each : ∀ c ∈ range width, (do
      let value ← tensorIndex slotLut (max (col c) 0)
      pure (if col c < 0 then -1 else value) : Option Int) =
        some (if c < bound then (slot c : Int) else -1) := by
    intro c mem
    by_cases isPick : c < bound
    · rw [if_pos isPick, valid c isPick, max_eq_left (by omega), tensorIndex_natCast,
        found c isPick]
      show some (if (place c : Int) < 0 then -1 else (slot c : Int)) = _
      rw [if_neg (by omega)]
    · rw [if_neg isPick, mask c (not_lt.mp isPick) (mem_range.mp mem)]
      have first : tensorIndex slotLut (max (-1) 0) = slotLut[0]? := tensorIndex_natCast 0
      rw [first, getElem?_eq_getElem (length_pos_iff.mpr nonempty)]
      rfl
  unfold winColsToGlobal gatherMasked
  rw [mapM_map]
  refine (mapM_some each).trans ?_
  rw [ramp_eq within]
  unfold maskedRow
  rw [length_map, length_range, map_map]
  rfl

theorem blocksToGlobal_ramp {ratio : Nat} {block : Nat → Int} (loc : Nat → Nat)
    (within : bound ≤ width) (nonempty : row ≠ []) (valid : ∀ b < bound, block b = b)
    (found : ∀ b < bound, row[b * ratio]? = some (loc b : Int))
    (mask : ∀ b, bound ≤ b → b < width → block b = -1) :
    blocksToGlobal row ratio ((List.range width).map block) =
      some (maskedRow ((List.range bound).map fun b => loc b / ratio) width) := by
  have each : ∀ b ∈ range width, (do
      let fullAt ← tensorIndex row (max (block b) 0 * ratio)
      pure (if block b < 0 then -1 else Dsv4PagedPool.cmpRow fullAt ratio) : Option Int) =
        some (if b < bound then ((loc b / ratio : Nat) : Int) else -1) := by
    intro b mem
    by_cases isPick : b < bound
    · rw [if_pos isPick, valid b isPick, max_eq_left (by omega), ← Int.natCast_mul,
        tensorIndex_natCast, found b isPick]
      show some (if (b : Int) < 0 then -1 else (loc b : Int) / ratio) = _
      rw [if_neg (by omega)]
      rfl
    · rw [if_neg isPick, mask b (not_lt.mp isPick) (mem_range.mp mem)]
      have first : tensorIndex row (max (-1) 0 * ratio) = row[0]? := by
        have zero : max (-1 : Int) 0 * ratio = ((0 : Nat) : Int) := by
          rw [max_eq_right (by omega), Int.zero_mul]
          rfl
        rw [zero]
        exact tensorIndex_natCast 0
      rw [first, getElem?_eq_getElem (length_pos_iff.mpr nonempty)]
      rfl
  unfold blocksToGlobal
  rw [mapM_map]
  refine (mapM_some each).trans ?_
  rw [ramp_eq within]
  unfold maskedRow
  rw [length_map, length_range, map_map]
  rfl

theorem blocksToGlobal_some {ratio : Nat} {blocks : List Int}
    (lt : ∀ block ∈ blocks, (max block 0).toNat * ratio < row.length) :
    ∃ rows, blocksToGlobal row ratio blocks = some rows ∧ rows.length = blocks.length := by
  have each : ∀ block ∈ blocks, (do
      let fullAt ← tensorIndex row (max block 0 * ratio)
      pure (if block < 0 then -1 else Dsv4PagedPool.cmpRow fullAt ratio) : Option Int) =
        some (if block < 0 then -1 else
          Dsv4PagedPool.cmpRow (row.getD ((max block 0).toNat * ratio) (-1)) ratio) := by
    intro block mem
    have within := lt block mem
    have index : max block 0 * ratio = (((max block 0).toNat * ratio : Nat) : Int) := by
      rw [Int.natCast_mul, Int.toNat_of_nonneg (le_max_right _ _)]
    rw [index, tensorIndex_natCast, getElem?_eq_getElem within, getD_eq_getElem _ _ within]
    rfl
  refine ⟨_, mapM_some each, length_map ..⟩

end Columns

/-! ### The ring -/

section Ring

variable {pool : Dsv4PagedPool} {row : List Int} {tableIdx windowSize pos : Nat}

end Ring

end FreeToken
