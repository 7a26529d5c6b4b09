/-
**One program for each row.**
-/

import FreeToken.Kernel.QsaTopkRanks
import Mathlib.Data.List.Sort

namespace FreeToken.QsaTopk

open List

def liveKey (row : List (BitVec 32)) (c : Nat) : BitVec 32 :=
  let value := row.getD c 0xFF800000#32
  if aboveNegInf value then monotoneKey value else 0

/-- The winners, and `-1` behind them. -/
def packRow (winners : List Nat) (topK : Nat) : List Int :=
  winners.map (fun c : Nat => (c : Int)) ++ List.replicate (topK - winners.length) (-1)

/-- **The output**: the visible columns with the largest keys, packed in ascending order. -/
def topRow (row : List (BitVec 32)) (visible : BitVec 32) (topK : Nat) : List Int :=
  packRow (winnersOf (liveKey row) (limitOf row visible) topK) topK

section Rows

variable {keyOf : Nat → BitVec 32} {n k topK : Nat}

theorem packRow_length {winners : List Nat} (few : winners.length ≤ topK) :
    (packRow winners topK).length = topK := by
  rw [packRow, length_append, length_map, length_replicate]
  omega

theorem writes_row {winners : List Nat} {stores : List (Int × Int)} (few : winners.length ≤ topK)
    (each : ∀ store ∈ stores, (∃ r c : Nat, winners[r]? = some c ∧ store = ((r : Int), (c : Int))) ∨
      ∃ pad : Nat, winners.length ≤ pad ∧ pad < topK ∧ store = ((pad : Int), -1))
    (winner : ∀ r c : Nat, winners[r]? = some c → ((r : Int), (c : Int)) ∈ stores)
    (pads : ∀ pad, winners.length ≤ pad → pad < topK → ((pad : Int), -1) ∈ stores) :
    Writes stores (packRow winners topK) := by
  apply writes_of_mem
  · intro store mem
    rcases each store mem with ⟨r, c, isWinner, rfl⟩ | ⟨pad, behind, small, rfl⟩
    · have within := (List.getElem?_eq_some_iff.mp isWinner).1
      refine ⟨r, rfl, ?_⟩
      rw [packRow, getElem?_append_left (by rwa [length_map]), getElem?_map, isWinner]
      rfl
    · refine ⟨pad, rfl, ?_⟩
      rw [packRow, getElem?_append_right (by rwa [length_map]), length_map,
        getElem?_replicate, if_pos (by omega)]
  · intro p within
    rw [packRow_length few] at within
    rcases lt_or_ge p winners.length with isWinner | behind
    · exact ⟨_, winner p _ (getElem?_eq_getElem isWinner), rfl⟩
    · exact ⟨_, pads p behind within, rfl⟩

/-! ### Winners that are the same -/

theorem winnersOf_congr {other : Nat → BitVec 32} (same : ∀ c < n, keyOf c = other c) :
    winnersOf keyOf n k = winnersOf other n k := by
  have live : liveBelow keyOf n = liveBelow other n := by
    apply Finset.filter_congr
    intro c mem
    rw [same c (Finset.mem_range.mp mem)]
  have best : bestIn (byKey (keyAt keyOf)) (liveBelow keyOf n) k =
      bestIn (byKey (keyAt other)) (liveBelow other n) k := by
    rw [live]
    apply bestIn_congr
    intro i isLive j jLive
    rw [byKey_lt, byKey_lt, keyAt, keyAt, keyAt, keyAt, same i (mem_liveBelow.mp isLive).1,
      same j (mem_liveBelow.mp jLive).1]
  unfold winnersOf
  rw [best]

theorem winnersOf_extend {limit : Nat} (dead : ∀ c, limit ≤ c → keyOf c = 0) (within : limit ≤ n) :
    winnersOf keyOf n k = winnersOf keyOf limit k := by
  have live : liveBelow keyOf n = liveBelow keyOf limit := by
    ext c
    rw [mem_liveBelow, mem_liveBelow]
    constructor
    · rintro ⟨-, isLive⟩
      exact ⟨not_le.mp fun past => isLive (dead c past), isLive⟩
    · rintro ⟨lt, isLive⟩
      exact ⟨lt.trans_le within, isLive⟩
  obtain ⟨more, rfl⟩ := Nat.exists_eq_add_of_le within
  unfold winnersOf
  rw [live, range_add, filter_append]
  have none : ((range more).map (limit + ·)).filter (fun c =>
      decide (c ∈ bestIn (byKey (keyAt keyOf)) (liveBelow keyOf limit) k)) = [] := by
    rw [filter_eq_nil_iff]
    intro c mem
    obtain ⟨i, -, rfl⟩ := mem_map.mp mem
    rw [decide_eq_true_iff]
    intro best
    have lt := (mem_liveBelow.mp (bestIn_subset best)).1
    omega
  rw [none, append_nil]

theorem liveBelow_card_le : (liveBelow keyOf n).card ≤ n :=
  (Finset.card_filter_le _ _).trans_eq (Finset.card_range n)

theorem winnersOf_min {limit : Nat} (few : (liveBelow keyOf n).card ≤ limit) :
    winnersOf keyOf n (min limit k) = winnersOf keyOf n k := by
  unfold winnersOf
  rw [bestIn_min few]

theorem winnersOf_none (none : min n k = 0) : winnersOf keyOf n k = [] := by
  have few := @liveBelow_card_le keyOf n
  apply eq_nil_of_length_eq_zero
  rw [winnersOf_length]
  omega

/-! ### The tiles -/

theorem compact_run {lower : BitVec 32} {blockN ties : Nat} (few : blockN < 2 ^ 15) (tiles : Nat) :
    let done := (List.range tiles).foldl (fun done t =>
      compact (((List.range blockN).map (t * blockN + ·)).map keyOf) (t * blockN + ·) lower ties topK
        done) ⟨[], 0, 0⟩
    done.above = greaters keyOf lower (tiles * blockN) ∧
      done.equal = equals keyOf lower (tiles * blockN) ∧
      ∀ store, store ∈ done.stores ↔ ∃ c < tiles * blockN, taken keyOf lower ties c = true ∧
        rankOf keyOf lower ties c < topK ∧ store = ((rankOf keyOf lower ties c : Int), (c : Int)) := by
  induction tiles with
  | zero =>
    refine ⟨by simp [greaters], by simp [equals], fun store => iff_of_false not_mem_nil ?_⟩
    rintro ⟨c, none, -⟩
    rw [Nat.zero_mul] at none
    exact absurd none (Nat.not_lt_zero c)
  | succ tiles ih =>
    obtain ⟨above, equal, stores⟩ := ih
    rw [range_succ, foldl_append]
    obtain ⟨done, isDone⟩ : ∃ done, done = (range tiles).foldl (fun done t =>
        compact (((range blockN).map (t * blockN + ·)).map keyOf) (t * blockN + ·) lower ties
          topK done) ⟨[], 0, 0⟩ := ⟨_, rfl⟩
    rw [← isDone] at above equal stores ⊢
    have tile : ((range blockN).map (tiles * blockN + ·)).map keyOf =
        (range blockN).map fun i => keyOf (tiles * blockN + i) := map_map
    have totals := @tileTotals_eq keyOf lower blockN (tiles * blockN) few
    simp only [foldl_cons, foldl_nil, compact, tile, above, equal, totals, Nat.succ_mul, true_and]
    intro store
    rw [mem_append, stores, mem_rankStores few]
    simp only [Int.zero_add]
    constructor
    · rintro (⟨c, within, isTaken, small, rfl⟩ | ⟨i, within, isTaken, small, rfl⟩)
      · exact ⟨c, by omega, isTaken, small, rfl⟩
      · exact ⟨tiles * blockN + i, by omega, isTaken, small, rfl⟩
    · rintro ⟨c, within, isTaken, small, rfl⟩
      rcases Nat.lt_or_ge c (tiles * blockN) with early | late
      · exact Or.inl ⟨c, early, isTaken, small, rfl⟩
      · obtain ⟨i, rfl⟩ := Nat.exists_eq_add_of_le late
        exact Or.inr ⟨i, by omega, isTaken, small, rfl⟩

end Rows

/-! ### The kernel -/

section Kernel

variable {row : List (BitVec 32)} {visible : BitVec 32} {topK padK : Nat} (padded : topK ≤ padK)

theorem limitOf_le : limitOf row visible ≤ row.length := by
  unfold limitOf
  omega

theorem loadKey_eq (base limit c : Nat) :
    loadKey row base limit c = if c < limit then liveKey row (base + c) else 0 := rfl

theorem topRow_eq {n : Nat} (reach : limitOf row visible ≤ n) : topRow row visible topK =
      packRow (winnersOf (loadKey row 0 (limitOf row visible)) n topK) topK := by
  have dead : ∀ c, limitOf row visible ≤ c → loadKey row 0 (limitOf row visible) c = 0 := by
    intro c past
    rw [loadKey_eq, if_neg (not_lt.mpr past)]
  have same : ∀ c < limitOf row visible, liveKey row c = loadKey row 0 (limitOf row visible) c := by
    intro c lt
    rw [loadKey_eq, if_pos lt, zero_add]
  rw [topRow, winnersOf_congr same, winnersOf_extend dead reach]

include padded

theorem writes_none (none : min (limitOf row visible) topK = 0) :
    Writes (padStores padK topK 0 0 (-1)) (topRow row visible topK) := by
  rw [topRow, winnersOf_none none]
  apply writes_row (Nat.zero_le _)
  · intro store mem
    obtain ⟨pad, -, -, small, rfl⟩ := (@mem_padStores Int padK topK 0 0 _ _).mp mem
    exact Or.inr ⟨pad, Nat.zero_le _, small, by rw [Int.zero_add]⟩
  · intro r c isWinner
    cases isWinner
  · intro pad _ small
    exact (@mem_padStores Int padK topK 0 0 _ _).mpr
      ⟨pad, small.trans_le padded, Nat.zero_le _, small, by rw [Int.zero_add]⟩

/-- The kernel of one tile and of several. -/
theorem qsaBlockTopkKernel_writes {blockN : Nat} {singleTile : Bool} (some_ : 0 < blockN)
    (few : blockN < 2 ^ 15) (single : singleTile = true → row.length ≤ blockN) :
    Writes (qsaBlockTopkKernel row visible topK padK blockN singleTile) (topRow row visible topK) := by
  unfold qsaBlockTopkKernel
  dsimp only
  split
  · rename_i pos
    obtain ⟨tiles, isTiles⟩ : ∃ tiles, tiles = (limitOf row visible + blockN - 1) / blockN := ⟨_, rfl⟩
    obtain ⟨count, isCount⟩ : ∃ count, count = if singleTile then 1 else tiles := ⟨_, rfl⟩
    obtain ⟨keyOf, isKey⟩ : ∃ keyOf, keyOf = loadKey row 0 (limitOf row visible) := ⟨_, rfl⟩
    have enough : limitOf row visible ≤ tiles * blockN := by
      have whole := Nat.div_add_mod (limitOf row visible + blockN - 1) blockN
      have below := Nat.mod_lt (limitOf row visible + blockN - 1) some_
      rw [← isTiles, Nat.mul_comm] at whole
      omega
    have reach : limitOf row visible ≤ count * blockN := by
      rw [isCount]
      split
      · rename_i isSingle
        rw [Nat.one_mul]
        exact limitOf_le.trans (single isSingle)
      · exact enough
    have live : (liveBelow keyOf (count * blockN)).card ≤ limitOf row visible := by
      have dead : ∀ c, limitOf row visible ≤ c → keyOf c = 0 := by
        intro c past
        rw [isKey, loadKey_eq, if_neg (not_lt.mpr past)]
      refine (Finset.card_le_card fun c mem => ?_).trans_eq (Finset.card_range _)
      have isLive := (mem_liveBelow.mp mem).2
      exact Finset.mem_range.mpr (not_le.mp fun past => isLive (dead c past))
    obtain ⟨threshold, isThreshold⟩ : ∃ threshold, threshold =
        if singleTile then residentPrefix (loadKeys row 0 (limitOf row visible)
          ((range blockN).map (0 * blockN + ·))) (min (limitOf row visible) topK)
        else tiledPrefix (fun t => loadKeys row 0 (limitOf row visible)
          ((range blockN).map (t * blockN + ·))) tiles (min (limitOf row visible) topK) :=
      ⟨_, rfl⟩
    have selects : Threshold (liveBelow keyOf (count * blockN)) (keyAt keyOf)
        (min (limitOf row visible) topK) threshold.1.toNat threshold.2 := by
      rw [isThreshold, isCount, isKey]
      split
      · have first : (range blockN).map (0 * blockN + ·) = range blockN := by simp
        rw [first, Nat.one_mul]
        exact residentPrefix_threshold pos
      · exact tiledPrefix_threshold pos
    rw [← isTiles, ← isThreshold, ← isCount]
    obtain ⟨above, equal, stores⟩ := @compact_run keyOf topK threshold.1 blockN threshold.2 few count
    have loads : ∀ cols, loadKeys row 0 (limitOf row visible) cols = cols.map keyOf :=
      fun cols => by rw [isKey]; rfl
    simp only [loads] at above equal stores ⊢
    have emitted : (greaters keyOf threshold.1 (count * blockN) : Int) +
        min (equals keyOf threshold.1 (count * blockN) : Int) threshold.2 =
          ((winnersOf keyOf (count * blockN) topK).length : Nat) := by
      rw [← winnersOf_min live, ← rankOf_all selects, rankOf]
      omega
    rw [above, equal, emitted, topRow_eq reach, ← isKey]
    apply writes_row winnersOf_le
    · intro store mem
      rcases mem_append.mp mem with won | isPad
      · obtain ⟨c, within, isTaken, small, rfl⟩ := (stores store).mp won
        refine Or.inl ⟨_, c, ?_, rfl⟩
        rw [← winnersOf_min live]
        exact (taken_rank_iff selects (min_le_right _ topK)).mp ⟨within, isTaken, small, rfl⟩
      · obtain ⟨pad, -, behind, small, rfl⟩ := mem_padStores.mp isPad
        exact Or.inr ⟨pad, behind, small, by rw [Int.zero_add]⟩
    · intro r c isWinner
      rw [← winnersOf_min live] at isWinner
      obtain ⟨within, isTaken, small, rfl⟩ :=
        (taken_rank_iff selects (min_le_right _ topK)).mpr isWinner
      exact mem_append_left _ ((stores _).mpr ⟨c, within, isTaken, small, rfl⟩)
    · intro pad behind small
      exact mem_append_right _ (mem_padStores.mpr
        ⟨pad, small.trans_le padded, behind, small, by rw [Int.zero_add]⟩)
  · rename_i none
    exact writes_none padded (by omega)

end Kernel

end FreeToken.QsaTopk
