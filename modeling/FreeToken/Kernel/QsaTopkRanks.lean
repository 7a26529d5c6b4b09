/-
**The winners of a tile, and their ranks.**
-/

import FreeToken.Kernel.QsaTopkSelect

namespace FreeToken.QsaTopk

open List

variable (keyOf : Nat → BitVec 32)

/-- **The best live columns, in ascending order**: the largest keys, a tie going to the smaller column. -/
def winnersOf (n k : Nat) : List Nat :=
  (List.range n).filter fun c => decide (c ∈ bestIn (byKey (keyAt keyOf)) (liveBelow keyOf n) k)

variable (lower : BitVec 32)

def greaters (c : Nat) : Nat := (List.range c).countP fun i => lower < keyOf i ∧ keyOf i ≠ 0

def equals (c : Nat) : Nat := (List.range c).countP fun i => keyOf i = lower ∧ keyOf i ≠ 0

def taken (ties c : Nat) : Bool :=
  (lower < keyOf c ∧ keyOf c ≠ 0) ∨ (keyOf c = lower ∧ keyOf c ≠ 0) ∧ equals keyOf lower c < ties

def rankOf (ties c : Nat) : Nat := greaters keyOf lower c + min (equals keyOf lower c) ties

section Ranks

variable {keyOf : Nat → BitVec 32} {lower : BitVec 32} {n k ties : Nat}

/-! ### The winners -/

theorem mem_winnersOf {c : Nat} :
    c ∈ winnersOf keyOf n k ↔ c ∈ bestIn (byKey (keyAt keyOf)) (liveBelow keyOf n) k := by
  unfold winnersOf
  rw [mem_filter, mem_range, decide_eq_true_iff]
  exact and_iff_right_of_imp fun best => (mem_liveBelow.mp (bestIn_subset best)).1

theorem winnersOf_live {c : Nat} (wins : c ∈ winnersOf keyOf n k) : c < n ∧ keyOf c ≠ 0 :=
  mem_liveBelow.mp (bestIn_subset (mem_winnersOf.mp wins))

theorem winnersOf_nodup : (winnersOf keyOf n k).Nodup := nodup_range.filter _

theorem winnersOf_sorted : (winnersOf keyOf n k).Pairwise (· < ·) := pairwise_lt_range.filter _

theorem winnersOf_toFinset :
    (winnersOf keyOf n k).toFinset = bestIn (byKey (keyAt keyOf)) (liveBelow keyOf n) k := by
  ext c
  rw [mem_toFinset, mem_winnersOf]

theorem winnersOf_length : (winnersOf keyOf n k).length = min (liveBelow keyOf n).card k := by
  rw [← toFinset_card_of_nodup winnersOf_nodup, winnersOf_toFinset,
    bestIn_card byKey_injective.injOn]

/-! ### Counts up to a column -/

theorem greaters_succ (c : Nat) : greaters keyOf lower (c + 1) =
    greaters keyOf lower c + if lower < keyOf c ∧ keyOf c ≠ 0 then 1 else 0 := by
  unfold greaters
  rw [range_succ, countP_append, countP_singleton]
  simp only [decide_eq_true_eq]

theorem equals_succ (c : Nat) : equals keyOf lower (c + 1) =
    equals keyOf lower c + if keyOf c = lower ∧ keyOf c ≠ 0 then 1 else 0 := by
  unfold equals
  rw [range_succ, countP_append, countP_singleton]
  simp only [decide_eq_true_eq]

theorem greaters_add (base c : Nat) : greaters keyOf lower (base + c) =
    greaters keyOf lower base + greaters (fun i => keyOf (base + i)) lower c := by
  unfold greaters
  rw [range_add, countP_append, countP_map]
  rfl

theorem equals_add (base c : Nat) : equals keyOf lower (base + c) =
    equals keyOf lower base + equals (fun i => keyOf (base + i)) lower c := by
  unfold equals
  rw [range_add, countP_append, countP_map]
  rfl

theorem greaters_add_equals_le (c : Nat) : greaters keyOf lower c + equals keyOf lower c ≤ c := by
  induction c with
  | zero => exact le_rfl
  | succ c ih =>
    rw [greaters_succ, equals_succ]
    by_cases isGreater : lower < keyOf c ∧ keyOf c ≠ 0
    · have notEqual : ¬(keyOf c = lower ∧ keyOf c ≠ 0) := by
        rintro ⟨isEqual, -⟩
        exact absurd isGreater.1 (isEqual ▸ BitVec.lt_irrefl _)
      rw [if_pos isGreater, if_neg notEqual]
      omega
    · rw [if_neg isGreater]
      split <;> omega

theorem rankOf_eq (c : Nat) :
    rankOf keyOf lower ties c = (List.range c).countP (taken keyOf lower ties) := by
  induction c with
  | zero =>
    unfold rankOf greaters equals
    simp
  | succ c ih =>
    rw [range_succ, countP_append, ← ih, countP_singleton]
    unfold rankOf
    rw [greaters_succ, equals_succ]
    simp only [taken, decide_eq_true_eq]
    by_cases isGreater : lower < keyOf c ∧ keyOf c ≠ 0
    · have notEqual : ¬(keyOf c = lower ∧ keyOf c ≠ 0) := by
        rintro ⟨isEqual, -⟩
        exact absurd isGreater.1 (isEqual ▸ BitVec.lt_irrefl _)
      rw [if_pos isGreater, if_neg notEqual, if_pos (Or.inl isGreater)]
      omega
    · by_cases isEqual : keyOf c = lower ∧ keyOf c ≠ 0
      · rw [if_neg isGreater, if_pos isEqual]
        split
        · rename_i early
          have room : equals keyOf lower c < ties := (early.resolve_left isGreater).2
          omega
        · rename_i late
          have full : ¬equals keyOf lower c < ties := fun less => late (Or.inr ⟨isEqual, less⟩)
          omega
      · rw [if_neg isGreater, if_neg isEqual, if_neg (by tauto)]
        omega

/-! ### The packed prefix sum -/

theorem sum32_append (values : List (BitVec 32)) (value : BitVec 32) :
    sum32 (values ++ [value]) = sum32 values + value := by
  unfold sum32
  rw [foldl_append]
  rfl

theorem packed_toNat (key : BitVec 32) : (packed lower key).toNat =
    (if lower < key ∧ key ≠ 0 then 1 else 0) +
      (if key = lower ∧ key ≠ 0 then 1 else 0) * 2 ^ 16 := by
  unfold packed
  by_cases isGreater : lower < key ∧ key ≠ 0
  · have notEqual : ¬(key = lower ∧ key ≠ 0) := by
      rintro ⟨isEqual, -⟩
      exact absurd isGreater.1 (isEqual ▸ BitVec.lt_irrefl _)
    rw [if_pos isGreater, if_neg notEqual, if_pos isGreater, if_neg notEqual]
    rfl
  · rw [if_neg isGreater, if_neg isGreater]
    split <;> rfl

theorem sum32_packed {c : Nat} (few : c < 2 ^ 15) :
    (sum32 (((List.range c).map keyOf).map (packed lower))).toNat =
      greaters keyOf lower c + equals keyOf lower c * 2 ^ 16 := by
  induction c with
  | zero => simp [sum32, greaters, equals]
  | succ c ih =>
    have most := @greaters_add_equals_le keyOf lower (c + 1)
    rw [range_succ, map_append, map_append, map_singleton, map_singleton,
      sum32_append, BitVec.toNat_add, ih (by omega), packed_toNat]
    rw [greaters_succ, equals_succ] at most ⊢
    rw [Nat.mod_eq_of_lt (by omega)]
    omega

theorem halves {x : BitVec 32} {g e : Nat} (isSum : x.toNat = g + e * 2 ^ 16) (low : g < 2 ^ 16)
    (high : e < 2 ^ 15) : (x &&& 0xFFFF#32).toInt = g ∧ (x.sshiftRight 16).toInt = e := by
  have small : 2 * x.toNat < 2 ^ 32 := by omega
  have signless : x.toInt = (g : Int) + e * 2 ^ 16 := by
    rw [BitVec.toInt_eq_toNat_of_lt small, isSum]
    omega
  constructor
  · have value : (x &&& 0xFFFF#32).toNat = g := by
      have mask : (0xFFFF#32).toNat = 2 ^ 16 - 1 := rfl
      rw [BitVec.toNat_and, mask, Nat.and_two_pow_sub_one_eq_mod, isSum]
      omega
    rw [BitVec.toInt_eq_toNat_of_lt (by omega), value]
  · rw [BitVec.toInt_sshiftRight, signless, Int.shiftRight_eq_div_pow]
    omega

section Tile

variable {base : Nat} (few : n < 2 ^ 15)

include few

/-- The packed prefix sum carries the two counts, so a rank is the number of columns taken
before. -/
theorem tileRank_eq {i : Nat} (within : i < n) :
    tileRank ((List.range n).map fun i => keyOf (base + i)) lower ties (greaters keyOf lower base)
      (equals keyOf lower base) i =
      ((rankOf keyOf lower ties (base + i) : Int), taken keyOf lower ties (base + i)) := by
  have isKey : ((range n).map fun i => keyOf (base + i)).getD i 0 = keyOf (base + i) := by
    rw [getD_eq_getElem _ _ (by rwa [length_map, length_range]), getElem_map, getElem_range]
  have pre : sum32 ((((range n).map fun i => keyOf (base + i)).take (i + 1)).map
      (packed lower)) - packed lower (keyOf (base + i)) =
        sum32 (((range i).map fun i => keyOf (base + i)).map (packed lower)) := by
    rw [← map_take, take_range, min_eq_left (by omega), range_succ,
      map_append, map_append, map_singleton, map_singleton, sum32_append,
      BitVec.add_sub_cancel]
  have most := @greaters_add_equals_le (fun i => keyOf (base + i)) lower i
  obtain ⟨low, high⟩ := halves (@sum32_packed (fun i => keyOf (base + i)) lower i (by omega))
    (by omega) (by omega)
  have isEqual : (equals keyOf lower base : Int) + (equals (fun i => keyOf (base + i)) lower i : Nat) =
      (equals keyOf lower (base + i) : Nat) := by
    rw [equals_add, Int.natCast_add]
  unfold tileRank
  dsimp only
  rw [isKey, pre, low, high, isEqual]
  unfold rankOf taken
  rw [greaters_add]
  congr 1
  · push_cast
    omega
  · exact_mod_cast rfl

theorem tileTotals_eq :
    tileTotals ((List.range n).map fun i => keyOf (base + i)) lower (greaters keyOf lower base)
      (equals keyOf lower base) =
      ((greaters keyOf lower (base + n) : Int), (equals keyOf lower (base + n) : Int)) := by
  have most := @greaters_add_equals_le (fun i => keyOf (base + i)) lower n
  obtain ⟨low, high⟩ := halves (@sum32_packed (fun i => keyOf (base + i)) lower n few)
    (by omega) (by omega)
  unfold tileTotals
  dsimp only
  rw [low, high, greaters_add, equals_add, Int.natCast_add, Int.natCast_add]

end Tile

/-! ### The stores of a tile -/

/-- The stores of a tile are the columns it takes, each at its rank. -/
theorem mem_rankStores {α : Type} {base topK : Nat} {slot : Int} {value : Nat → α}
    (few : n < 2 ^ 15) {store : Int × α} :
    store ∈ rankStores ((List.range n).map fun i => keyOf (base + i)) lower ties
        (greaters keyOf lower base) (equals keyOf lower base) topK slot value ↔
      ∃ i < n, taken keyOf lower ties (base + i) = true ∧ rankOf keyOf lower ties (base + i) < topK ∧
        store = (slot + rankOf keyOf lower ties (base + i), value i) := by
  unfold rankStores
  rw [mem_filterMap, length_map, length_range]
  constructor
  · rintro ⟨i, isPlace, isStore⟩
    have within := mem_range.mp isPlace
    dsimp only at isStore
    rw [tileRank_eq few within] at isStore
    split at isStore
    · rename_i stored
      obtain ⟨isTaken, small⟩ := stored
      dsimp only at small
      exact ⟨i, within, isTaken, by exact_mod_cast small, (Option.some.inj isStore).symm⟩
    · cases isStore
  · rintro ⟨i, within, isTaken, small, rfl⟩
    refine ⟨i, mem_range.mpr within, ?_⟩
    have ranked : ((rankOf keyOf lower ties (base + i) : Nat) : Int) < topK := by exact_mod_cast small
    rw [tileRank_eq few within, if_pos ⟨isTaken, ranked⟩]

theorem mem_padStores {α : Type} {padK topK : Nat} {slot : Int} {emitted : Nat} {value : α}
    {store : Int × α} : store ∈ padStores padK topK slot emitted value ↔
      ∃ pad < padK, emitted ≤ pad ∧ pad < topK ∧ store = (slot + pad, value) := by
  unfold padStores
  rw [mem_filterMap]
  constructor
  · rintro ⟨pad, isPad, isStore⟩
    split at isStore
    · rename_i stored
      exact ⟨pad, mem_range.mp isPad, by exact_mod_cast stored.1, stored.2,
        (Option.some.inj isStore).symm⟩
    · cases isStore
  · rintro ⟨pad, within, behind, small, rfl⟩
    exact ⟨pad, mem_range.mpr within, if_pos ⟨by exact_mod_cast behind, small⟩⟩

/-! ### What a threshold takes -/

theorem equals_eq {c : Nat} (within : c ≤ n) :
    equals keyOf lower c = equalBefore (liveBelow keyOf n) (keyAt keyOf) lower.toNat c := by
  unfold equals equalBefore liveBelow
  rw [countP_range, Finset.filter_filter]
  congr 1
  ext i
  rw [Finset.mem_filter, Finset.mem_filter, Finset.mem_range, Finset.mem_range, decide_eq_true_iff,
    keyAt, BitVec.toNat_inj]
  constructor
  · rintro ⟨pre, isEqual, live⟩
    exact ⟨pre.trans_le within, live, pre, isEqual⟩
  · rintro ⟨-, live, pre, isEqual⟩
    exact ⟨pre, isEqual, live⟩

variable (threshold : Threshold (liveBelow keyOf n) (keyAt keyOf) k lower.toNat ties)

include threshold

/-- What a threshold takes is what wins. -/
theorem taken_iff {c : Nat} (within : c < n) :
    taken keyOf lower ties c = true ↔ c ∈ winnersOf keyOf n k := by
  rw [mem_winnersOf]
  unfold taken
  rw [decide_eq_true_iff]
  by_cases live : keyOf c = 0
  · refine iff_of_false ?_ fun best => (mem_liveBelow.mp (bestIn_subset best)).2 live
    rintro (⟨-, isLive⟩ | ⟨⟨-, isLive⟩, -⟩)
    · exact isLive live
    · exact isLive live
  · rw [threshold.best_iff keyAt_pos (mem_liveBelow.mpr ⟨within, live⟩), equals_eq within.le]
    unfold keyAt
    rw [BitVec.lt_def, BitVec.toNat_inj]
    tauto

theorem winnersOf_eq : winnersOf keyOf n k = (List.range n).filter (taken keyOf lower ties) := by
  apply filter_congr
  intro c mem
  have iff := taken_iff threshold (mem_range.mp mem)
  rw [mem_winnersOf] at iff
  rw [Bool.eq_iff_iff, decide_eq_true_iff, iff]

theorem winnersOf_rank {c : Nat} (wins : c ∈ winnersOf keyOf n k) :
    (winnersOf keyOf n k)[rankOf keyOf lower ties c]? = some c := by
  have within := (winnersOf_live wins).1
  have isTaken := (taken_iff threshold within).mpr wins
  obtain ⟨more, isMore⟩ := Nat.exists_eq_add_of_lt within
  have split : range n = range c ++ c :: (range more).map (c + 1 + ·) := by
    rw [isMore, Nat.add_right_comm, range_add, range_succ, append_assoc]
    rfl
  rw [winnersOf_eq threshold, split, filter_append, filter_cons, if_pos isTaken, rankOf_eq,
    countP_eq_length_filter, getElem?_append_right le_rfl, Nat.sub_self]
  rfl

theorem rankOf_all : rankOf keyOf lower ties n = (winnersOf keyOf n k).length := by
  rw [rankOf_eq, winnersOf_eq threshold, countP_eq_length_filter]

omit threshold in
theorem winnersOf_le : (winnersOf keyOf n k).length ≤ k := by
  rw [winnersOf_length]
  exact min_le_right _ _

theorem taken_rank_iff {topK : Nat} (most : k ≤ topK) {r c : Nat} :
    (c < n ∧ taken keyOf lower ties c = true ∧ rankOf keyOf lower ties c < topK ∧
      r = rankOf keyOf lower ties c) ↔ (winnersOf keyOf n k)[r]? = some c := by
  constructor
  · rintro ⟨within, isTaken, -, rfl⟩
    exact winnersOf_rank threshold ((taken_iff threshold within).mp isTaken)
  · intro isWinner
    have wins := mem_of_getElem? isWinner
    have within := (winnersOf_live wins).1
    have rank := winnersOf_rank threshold wins
    have same : r = rankOf keyOf lower ties c := by
      obtain ⟨inR, atR⟩ := List.getElem?_eq_some_iff.mp isWinner
      obtain ⟨inRank, atRank⟩ := List.getElem?_eq_some_iff.mp rank
      exact (Nodup.getElem_inj_iff winnersOf_nodup).mp (atR.trans atRank.symm)
    have small := (List.getElem?_eq_some_iff.mp rank).1
    exact ⟨within, (taken_iff threshold within).mpr wins,
      (small.trans_le winnersOf_le).trans_le most, same⟩

omit threshold in
/-- A tile that is kept stores its winners. -/
theorem resident_stores {α : Type} {topK : Nat} (pos : 0 < k) (most : k ≤ topK)
    (few : n < 2 ^ 15) (slot : Int) (value : Nat → α) :
    let keys := (List.range n).map keyOf
    let threshold := residentPrefix keys k
    let totals := tileTotals keys threshold.1 0 0
    (∀ store, store ∈ rankStores keys threshold.1 threshold.2 0 0 topK slot value ↔
      ∃ r c : Nat, (winnersOf keyOf n k)[r]? = some c ∧ store = (slot + r, value c)) ∧
    totals.1 + min totals.2 threshold.2 = ((winnersOf keyOf n k).length : Nat) := by
  intro keys threshold totals
  have selects : Threshold (liveBelow keyOf n) (keyAt keyOf) k threshold.1.toNat threshold.2 :=
    residentPrefix_threshold pos
  have first : (range n).map (fun i => keyOf (0 + i)) = keys := by simp [keys]
  have above : ((greaters keyOf threshold.1 0 : Nat) : Int) = 0 := by simp [greaters]
  have equal : ((equals keyOf threshold.1 0 : Nat) : Int) = 0 := by simp [equals]
  constructor
  · intro store
    have ranks := @mem_rankStores keyOf threshold.1 n threshold.2 α 0 topK slot value few store
    simp only [above, equal, zero_add] at ranks
    rw [ranks]
    constructor
    · rintro ⟨i, within, isTaken, small, rfl⟩
      exact ⟨_, i, (taken_rank_iff selects most).mp ⟨within, isTaken, small, rfl⟩, rfl⟩
    · rintro ⟨r, c, isWinner, rfl⟩
      obtain ⟨within, isTaken, small, rfl⟩ := (taken_rank_iff selects most).mpr isWinner
      exact ⟨c, within, isTaken, small, rfl⟩
  · have counts := @tileTotals_eq keyOf threshold.1 n 0 few
    simp only [above, equal, zero_add] at counts
    rw [show totals = _ from counts, ← rankOf_all selects, rankOf]
    omega

end Ranks

end FreeToken.QsaTopk
