/-
**A row cut into splits.**

* `splitWinners`: the winners of one split; `split_keys`, `split_cols`: what its program stores;
* `qsaTopkMergeKernel_writes`: the second phase.
-/

import FreeToken.Kernel.QsaTopkTiles

namespace FreeToken.QsaTopk

open List Function Finset

def splitLimit (row : List (BitVec 32)) (visible : BitVec 32) (chunk split : Nat) : Nat :=
  min (limitOf row visible - split * chunk) chunk

def splitWinners (row : List (BitVec 32)) (visible : BitVec 32) (topK chunk split : Nat) : List Nat :=
  winnersOf (fun i => liveKey row (split * chunk + i)) (splitLimit row visible chunk split) topK

section Split

variable {row : List (BitVec 32)} {visible : BitVec 32} {topK padK chunk split : Nat}

theorem splitWinners_length : (splitWinners row visible topK chunk split).length ≤ topK :=
  winnersOf_le

theorem splitWinners_eq : splitWinners row visible topK chunk split =
      winnersOf (loadKey row (split * chunk) (splitLimit row visible chunk split)) chunk topK := by
  have dead : ∀ c, splitLimit row visible chunk split ≤ c →
      loadKey row (split * chunk) (splitLimit row visible chunk split) c = 0 := by
    intro c past
    rw [loadKey_eq, if_neg (not_lt.mpr past)]
  rw [winnersOf_extend dead (min_le_right _ _)]
  apply winnersOf_congr
  intro c inside
  rw [loadKey_eq, if_pos inside]

variable (few : chunk < 2 ^ 15) (padded : topK ≤ padK)

include few padded

/-- **The stores of a split**: its winners, each with its key and its column, and dead keys behind. -/
theorem split_stores : (∀ store, store ∈ (qsaTopkSplitKernel row visible topK padK chunk split).1 ↔
      (∃ r c : Nat, (splitWinners row visible topK chunk split)[r]? = some c ∧
        store = (((split * topK + r : Nat) : Int), liveKey row (split * chunk + c))) ∨
      ∃ pad : Nat, (splitWinners row visible topK chunk split).length ≤ pad ∧ pad < topK ∧
        store = (((split * topK + pad : Nat) : Int), 0)) ∧
    ∀ store, store ∈ (qsaTopkSplitKernel row visible topK padK chunk split).2 ↔
      ∃ r c : Nat, (splitWinners row visible topK chunk split)[r]? = some c ∧
        store = (((split * topK + r : Nat) : Int), ((split * chunk + c : Nat) : Int)) := by
  unfold qsaTopkSplitKernel
  dsimp only
  rw [show min (limitOf row visible - split * chunk) chunk = splitLimit row visible chunk split
    from rfl]
  split
  · rename_i pos
    obtain ⟨keyOf, isKey⟩ : ∃ keyOf, keyOf =
      loadKey row (split * chunk) (splitLimit row visible chunk split) := ⟨_, rfl⟩
    have loads : loadKeys row (split * chunk) (splitLimit row visible chunk split)
        (List.range chunk) = (List.range chunk).map keyOf := by rw [isKey]; rfl
    have live : (liveBelow keyOf chunk).card ≤ splitLimit row visible chunk split := by
      refine (card_le_card fun c mem => ?_).trans_eq (card_range _)
      obtain ⟨-, isLive⟩ := mem_liveBelow.mp mem
      refine Finset.mem_range.mpr (not_le.mp fun past => isLive ?_)
      rw [isKey, loadKey_eq, if_neg (not_lt.mpr past)]
    have winners : winnersOf keyOf chunk (min (splitLimit row visible chunk split) topK) =
        splitWinners row visible topK chunk split := by
      rw [winnersOf_min live, splitWinners_eq, isKey]
    have address : ∀ r : Nat, (split : Int) * topK + r = ((split * topK + r : Nat) : Int) := by
      intro r
      rw [Int.natCast_add, Int.natCast_mul]
    have key : ∀ c ∈ splitWinners row visible topK chunk split,
        ((List.range chunk).map keyOf).getD c 0 = liveKey row (split * chunk + c) := by
      intro c wins
      have inside : c < splitLimit row visible chunk split := (winnersOf_live wins).1
      have within : c < chunk := inside.trans_le (min_le_right _ _)
      rw [getD_eq_getElem _ _ (by rwa [length_map, length_range]),
        getElem_map, getElem_range, isKey, loadKey_eq, if_pos inside]
    obtain ⟨keys, count⟩ := @resident_stores keyOf chunk _ (BitVec 32) topK pos
      (min_le_right _ _) few (split * topK) (((List.range chunk).map keyOf).getD · 0)
    obtain ⟨cols, -⟩ := @resident_stores keyOf chunk _ Int topK pos
      (min_le_right _ _) few (split * topK) fun i => ((split * chunk : Nat) : Int) + i
    rw [winners] at keys cols count
    rw [loads, count]
    constructor
    · intro store
      rw [mem_append, keys, mem_padStores]
      apply or_congr
      · constructor
        · rintro ⟨r, c, isWinner, rfl⟩
          exact ⟨r, c, isWinner, by rw [address, key c (mem_of_getElem? isWinner)]⟩
        · rintro ⟨r, c, isWinner, rfl⟩
          exact ⟨r, c, isWinner, by rw [address, key c (mem_of_getElem? isWinner)]⟩
      · constructor
        · rintro ⟨pad, -, behind, small, rfl⟩
          exact ⟨pad, behind, small, by rw [address]⟩
        · rintro ⟨pad, behind, small, rfl⟩
          exact ⟨pad, small.trans_le padded, behind, small, by rw [address]⟩
    · intro store
      rw [cols]
      constructor
      · rintro ⟨r, c, isWinner, rfl⟩
        exact ⟨r, c, isWinner, by rw [address, Int.natCast_add (split * chunk)]⟩
      · rintro ⟨r, c, isWinner, rfl⟩
        exact ⟨r, c, isWinner, by rw [address, Int.natCast_add (split * chunk)]⟩
  · rename_i none
    have empty : splitWinners row visible topK chunk split = [] := winnersOf_none (by omega)
    rw [empty]
    constructor
    · intro store
      rw [show (0 : Int) = ((0 : Nat) : Int) from rfl, mem_padStores]
      constructor
      · rintro ⟨pad, -, behind, small, rfl⟩
        refine Or.inr ⟨pad, behind, small, ?_⟩
        rw [Int.natCast_add, Int.natCast_mul]
      · rintro (⟨r, c, isWinner, -⟩ | ⟨pad, behind, small, rfl⟩)
        · cases isWinner
        · refine ⟨pad, small.trans_le padded, behind, small, ?_⟩
          rw [Int.natCast_add, Int.natCast_mul]
    · intro store
      refine iff_of_false not_mem_nil ?_
      rintro ⟨r, c, isWinner, -⟩
      cases isWinner

end Split

/-! ### What the first phase leaves -/

section Scratch

variable {row : List (BitVec 32)} {visible : BitVec 32} {topK padK chunk nSplits : Nat}
  {keyRow : List (BitVec 32)} {colRow : List Int}
  (scratch : Scratch row visible topK padK chunk nSplits keyRow colRow)
  (few : chunk < 2 ^ 15) (padded : topK ≤ padK)

theorem slot_place (split : Nat) {r : Nat} (small : r < topK) :
    (split * topK + r) / topK = split ∧ (split * topK + r) % topK = r := by
  constructor
  · rw [Nat.mul_comm, Nat.mul_add_div (by omega), Nat.div_eq_of_lt small, Nat.add_zero]
  · rw [Nat.mul_comm, Nat.mul_add_mod, Nat.mod_eq_of_lt small]

theorem slot_inj {split other r r' : Nat} (small : r < topK) (small' : r' < topK)
    (same : split * topK + r = other * topK + r') : split = other ∧ r = r' := by
  obtain ⟨first, second⟩ := slot_place split small
  obtain ⟨first', second'⟩ := slot_place other small'
  rw [same] at first second
  exact ⟨first.symm.trans first', second.symm.trans second'⟩

theorem slot_within {split r : Nat} (isSplit : split < nSplits) (small : r < topK) :
    split * topK + r < nSplits * topK := by
  have next := Nat.mul_le_mul_right topK (Nat.succ_le_of_lt isSplit)
  rw [Nat.succ_mul] at next
  omega

include scratch few padded

/-- What the first phase leaves, whatever the scratch held. -/
theorem Scratch.key_eq {split r : Nat} (isSplit : split < nSplits) (small : r < topK) :
    keyRow[split * topK + r]? = some
      (((splitWinners row visible topK chunk split)[r]?).elim 0 fun c =>
        liveKey row (split * chunk + c)) := by
  obtain ⟨before, size, leaves⟩ := scratch.keys
  have stores := fun split => (@split_stores row visible topK padK chunk split few padded).1
  have short := fun split => @splitWinners_length row visible topK chunk split
  apply leaves.get
  · intro store mem
    obtain ⟨other, -, isStore⟩ := mem_flatMap.mp mem
    rcases (stores other store).mp isStore with ⟨r, c, -, rfl⟩ | ⟨pad, -, -, rfl⟩
    · exact Int.natCast_nonneg _
    · exact Int.natCast_nonneg _
  · rw [size]
    exact slot_within isSplit small
  · rcases Nat.lt_or_ge r (splitWinners row visible topK chunk split).length with isWinner | behind
    · exact ⟨_, mem_flatMap.mpr ⟨split, List.mem_range.mpr isSplit, (stores split _).mpr
        (Or.inl ⟨r, _, getElem?_eq_getElem isWinner, rfl⟩)⟩, rfl⟩
    · exact ⟨_, mem_flatMap.mpr ⟨split, List.mem_range.mpr isSplit, (stores split _).mpr
        (Or.inr ⟨r, behind, small, rfl⟩)⟩, rfl⟩
  · intro store mem here
    obtain ⟨other, -, isStore⟩ := mem_flatMap.mp mem
    rcases (stores other store).mp isStore with ⟨r', c, isWinner, rfl⟩ | ⟨pad, behind, inside, rfl⟩
    · have inside := (List.getElem?_eq_some_iff.mp isWinner).1
      obtain ⟨rfl, rfl⟩ := slot_inj (inside.trans_le (short other)) small (Int.natCast_inj.mp here)
      rw [isWinner]
      rfl
    · obtain ⟨rfl, rfl⟩ := slot_inj inside small (Int.natCast_inj.mp here)
      rw [getElem?_eq_none behind]
      rfl

theorem Scratch.col_eq {split r c : Nat} (isSplit : split < nSplits)
    (isWinner : (splitWinners row visible topK chunk split)[r]? = some c) :
    colRow[split * topK + r]? = some ((split * chunk + c : Nat) : Int) := by
  obtain ⟨before, size, leaves⟩ := scratch.cols
  have stores := fun split => (@split_stores row visible topK padK chunk split few padded).2
  have short := fun split => @splitWinners_length row visible topK chunk split
  have small := (List.getElem?_eq_some_iff.mp isWinner).1.trans_le (short split)
  apply leaves.get
  · intro store mem
    obtain ⟨other, -, isStore⟩ := mem_flatMap.mp mem
    obtain ⟨r, c, -, rfl⟩ := (stores other store).mp isStore
    exact Int.natCast_nonneg _
  · rw [size]
    exact slot_within isSplit small
  · exact ⟨_, mem_flatMap.mpr ⟨split, List.mem_range.mpr isSplit, (stores split _).mpr
      ⟨r, c, isWinner, rfl⟩⟩, rfl⟩
  · intro store mem here
    obtain ⟨other, -, isStore⟩ := mem_flatMap.mp mem
    obtain ⟨r', c', isOther, rfl⟩ := (stores other store).mp isStore
    have inside := (List.getElem?_eq_some_iff.mp isOther).1.trans_le (short other)
    obtain ⟨rfl, rfl⟩ := slot_inj inside small (Int.natCast_inj.mp here)
    rw [Option.some.inj (isOther.symm.trans isWinner)]

end Scratch

/-! ### The winners of a row -/

section Merge

variable {row : List (BitVec 32)} {visible : BitVec 32} {topK chunk : Nat}

def splitPart (row : List (BitVec 32)) (visible : BitVec 32) (chunk split : Nat) : Finset Nat :=
  (liveBelow (fun i => liveKey row (split * chunk + i)) (splitLimit row visible chunk split)).image
    (split * chunk + ·)

theorem mem_best_splitPart {split c : Nat} :
    c ∈ bestIn (byKey (keyAt (liveKey row))) (splitPart row visible chunk split) topK ↔
      ∃ i ∈ splitWinners row visible topK chunk split, c = split * chunk + i := by
  unfold splitPart
  rw [← bestIn_image fun _ _ _ _ same => Nat.add_left_cancel same]
  have same : bestIn (byKey (keyAt (liveKey row)) ∘ (split * chunk + ·))
      (liveBelow (fun i => liveKey row (split * chunk + i)) (splitLimit row visible chunk split)) topK =
        bestIn (byKey (keyAt fun i => liveKey row (split * chunk + i)))
          (liveBelow (fun i => liveKey row (split * chunk + i)) (splitLimit row visible chunk split))
          topK := by
    apply bestIn_congr
    intro i _ j _
    rw [comp, comp, byKey_lt, byKey_lt, Nat.add_lt_add_iff_left]
    exact Iff.rfl
  rw [same, mem_image]
  constructor
  · rintro ⟨i, best, rfl⟩
    exact ⟨i, mem_winnersOf.mpr best, rfl⟩
  · rintro ⟨i, wins, rfl⟩
    exact ⟨i, mem_winnersOf.mp wins, rfl⟩

theorem biUnion_splitPart {count : Nat} (some_ : 0 < chunk) (reach : limitOf row visible ≤ count * chunk) :
    (Finset.range count).biUnion (splitPart row visible chunk) =
      liveBelow (liveKey row) (limitOf row visible) := by
  ext c
  rw [mem_biUnion, mem_liveBelow]
  constructor
  · rintro ⟨split, -, mem⟩
    obtain ⟨i, isLive, rfl⟩ := mem_image.mp mem
    obtain ⟨inside, live⟩ := mem_liveBelow.mp isLive
    unfold splitLimit at inside
    exact ⟨by omega, live⟩
  · rintro ⟨inside, live⟩
    have place := Nat.div_add_mod c chunk
    rw [Nat.mul_comm] at place
    have below := Nat.mod_lt c some_
    refine ⟨c / chunk, ?_, mem_image.mpr ⟨c % chunk, mem_liveBelow.mpr ⟨?_, ?_⟩, place⟩⟩
    · rw [Finset.mem_range, Nat.div_lt_iff_lt_mul some_]
      exact inside.trans_le reach
    · unfold splitLimit
      omega
    · rw [place]
      exact live

/-- **The winners of a row are those among the winners of its splits**, for candidates that stand for
distinct columns in ascending order. -/
theorem winners_merge {count block k : Nat} {candKey : Nat → BitVec 32} {name : Nat → Nat}
    (some_ : 0 < chunk) (reach : limitOf row visible ≤ count * chunk)
    (isCol : ∀ p ∈ liveBelow candKey block, candKey p = liveKey row (name p))
    (sorted : ∀ p ∈ liveBelow candKey block, ∀ q ∈ liveBelow candKey block, p < q ↔ name p < name q)
    (names : ∀ c, (∃ p ∈ liveBelow candKey block, name p = c) ↔
      ∃ split < count, ∃ i ∈ splitWinners row visible topK chunk split, c = split * chunk + i)
    (isWidth : k = min (limitOf row visible) topK) :
    (winnersOf candKey block k).map name = winnersOf (liveKey row) (limitOf row visible) topK := by
  have injective : Set.InjOn name (liveBelow candKey block) := by
    intro p pLive q qLive same
    by_contra apart
    rcases Nat.lt_or_gt_of_ne apart with less | more
    · exact absurd same ((sorted p pLive q qLive).mp less).ne
    · exact absurd same ((sorted q qLive p pLive).mp more).ne'
  have candidates : (liveBelow candKey block).image name = (Finset.range count).biUnion fun split =>
      bestIn (byKey (keyAt (liveKey row))) (splitPart row visible chunk split) topK := by
    ext c
    rw [mem_image, names, mem_biUnion]
    simp only [Finset.mem_range, mem_best_splitPart]
  have whole := biUnion_splitPart some_ reach
  have few : (liveBelow candKey block).card ≤ limitOf row visible := by
    rw [← card_image_of_injOn injective, candidates]
    refine (card_le_card ?_).trans (@liveBelow_card_le (liveKey row) _)
    rw [← whole]
    exact biUnion_mono fun _ _ => bestIn_subset
  have best : (bestIn (byKey (keyAt candKey)) (liveBelow candKey block) topK).image name =
      bestIn (byKey (keyAt (liveKey row))) (liveBelow (liveKey row) (limitOf row visible)) topK := by
    have order : bestIn (byKey (keyAt candKey)) (liveBelow candKey block) topK =
        bestIn (byKey (keyAt (liveKey row)) ∘ name) (liveBelow candKey block) topK := by
      apply bestIn_congr
      intro p pLive q qLive
      rw [comp, comp, byKey_lt, byKey_lt, keyAt, keyAt, keyAt, keyAt,
        isCol p pLive, isCol q qLive, sorted q qLive p pLive]
    rw [order, bestIn_image injective, candidates, bestIn_biUnion byKey_injective.injOn, whole]
  rw [isWidth, winnersOf_min few]
  apply List.Pairwise.eq_of_mem_iff (r := (· < ·))
  · rw [pairwise_map]
    refine winnersOf_sorted.imp_of_mem fun pWins qWins less => ?_
    exact (sorted _ (bestIn_subset (mem_winnersOf.mp pWins)) _
      (bestIn_subset (mem_winnersOf.mp qWins))).mp less
  · exact winnersOf_sorted
  · intro c
    rw [mem_winnersOf, ← best, List.mem_map, mem_image]
    simp only [mem_winnersOf]

end Merge

/-! ### The second phase -/

theorem candidates_sorted {row : List (BitVec 32)} {visible : BitVec 32}
    {topK chunk split split' r r' c c' : Nat}
    (isWinner : (splitWinners row visible topK chunk split)[r]? = some c)
    (isWinner' : (splitWinners row visible topK chunk split')[r']? = some c') :
    split * topK + r < split' * topK + r' ↔ split * chunk + c < split' * chunk + c' := by
  have small := (List.getElem?_eq_some_iff.mp isWinner).1.trans_le splitWinners_length
  have small' := (List.getElem?_eq_some_iff.mp isWinner').1.trans_le splitWinners_length
  have inChunk := (winnersOf_live (mem_of_getElem? isWinner)).1.trans_le (min_le_right _ chunk)
  have inChunk' := (winnersOf_live (mem_of_getElem? isWinner')).1.trans_le (min_le_right _ chunk)
  rcases Nat.lt_trichotomy split split' with before | equal | after
  · have slots := Nat.mul_le_mul_right topK (Nat.succ_le_of_lt before)
    have columns := Nat.mul_le_mul_right chunk (Nat.succ_le_of_lt before)
    rw [Nat.succ_mul] at slots columns
    exact iff_of_true (by omega) (by omega)
  · subst equal
    rw [Nat.add_lt_add_iff_left, Nat.add_lt_add_iff_left]
    obtain ⟨inR, rfl⟩ := List.getElem?_eq_some_iff.mp isWinner
    obtain ⟨inR', rfl⟩ := List.getElem?_eq_some_iff.mp isWinner'
    have sorted := pairwise_iff_getElem.mp (@winnersOf_sorted
      (fun i => liveKey row (split * chunk + i)) (splitLimit row visible chunk split) topK)
    constructor
    · exact sorted r r' inR inR'
    · intro less
      by_contra late
      rcases Nat.lt_or_eq_of_le (not_lt.mp late) with more | equal
      · exact absurd (sorted r' r inR' inR more) (Nat.lt_asymm less)
      · subst equal
        exact lt_irrefl _ less
  · have slots := Nat.mul_le_mul_right topK (Nat.succ_le_of_lt after)
    have columns := Nat.mul_le_mul_right chunk (Nat.succ_le_of_lt after)
    rw [Nat.succ_mul] at slots columns
    exact iff_of_false (by omega) (by omega)

section Second

variable {row : List (BitVec 32)} {visible : BitVec 32} {topK padK chunk nSplits : Nat}
  {keyRow : List (BitVec 32)} {colRow : List Int}
  (scratch : Scratch row visible topK padK chunk nSplits keyRow colRow)
  (few : chunk < 2 ^ 15) (some_ : 0 < chunk) (padded : topK ≤ padK)

include scratch few some_ padded

/-- **The tile of candidates** stores the winners of the row. -/
theorem mergeTile_stores {count block : Nat} (isCount : count ≤ nSplits)
    (reach : limitOf row visible ≤ count * chunk) (pos : 0 < min (limitOf row visible) topK)
    (fits : count * topK ≤ block) (narrow : block < 2 ^ 15) :
    let merged := mergeTile keyRow colRow (count * topK) (min (limitOf row visible) topK) topK block
    (∀ store, store ∈ merged.1 ↔ ∃ r c : Nat,
      (winnersOf (liveKey row) (limitOf row visible) topK)[r]? = some c ∧ store = ((r : Int), (c : Int))) ∧
    merged.2 = ((winnersOf (liveKey row) (limitOf row visible) topK).length : Nat) := by
  intro merged
  obtain ⟨candKey, isCand⟩ : ∃ candKey : Nat → BitVec 32, candKey = fun p =>
    if p < count * topK then keyRow.getD p 0 else 0 := ⟨_, rfl⟩
  obtain ⟨name, isName⟩ : ∃ name : Nat → Nat, name = fun p => (colRow.getD p (-1)).toNat := ⟨_, rfl⟩
  have topPos : 0 < topK := by omega
  -- what a candidate is
  have cand : ∀ split < count, ∀ r < topK, candKey (split * topK + r) =
      ((splitWinners row visible topK chunk split)[r]?).elim 0 fun c =>
        liveKey row (split * chunk + c) := by
    intro split isSplit r small
    have key := scratch.key_eq few padded (isSplit.trans_le isCount) small
    rw [isCand]
    dsimp only
    rw [if_pos (slot_within isSplit small), getD_eq_getElem?_getD, key]
    rfl
  have winner : ∀ split < count, ∀ r c, (splitWinners row visible topK chunk split)[r]? = some c →
      split * topK + r ∈ liveBelow candKey block ∧
        candKey (split * topK + r) = liveKey row (split * chunk + c) ∧
        colRow.getD (split * topK + r) (-1) = ((split * chunk + c : Nat) : Int) ∧
        name (split * topK + r) = split * chunk + c := by
    intro split isSplit r c isWinner
    have small := (List.getElem?_eq_some_iff.mp isWinner).1.trans_le splitWinners_length
    have key := cand split isSplit r small
    have col := scratch.col_eq few padded (isSplit.trans_le isCount) isWinner
    have live := (winnersOf_live (mem_of_getElem? isWinner)).2
    rw [isWinner] at key
    have value : colRow.getD (split * topK + r) (-1) = ((split * chunk + c : Nat) : Int) := by
      rw [getD_eq_getElem?_getD, col]
      rfl
    refine ⟨mem_liveBelow.mpr ⟨(slot_within isSplit small).trans_le fits, ?_⟩, key, value, ?_⟩
    · rw [key]
      exact live
    · rw [isName]
      dsimp only
      rw [value, Int.toNat_natCast]
  have live : ∀ p ∈ liveBelow candKey block, ∃ split < count, ∃ r c,
      (splitWinners row visible topK chunk split)[r]? = some c ∧ p = split * topK + r := by
    intro p mem
    obtain ⟨-, isLive⟩ := mem_liveBelow.mp mem
    have inside : p < count * topK := by
      by_contra past
      rw [isCand] at isLive
      exact isLive (if_neg past)
    have place := Nat.div_add_mod p topK
    rw [Nat.mul_comm] at place
    have isSplit : p / topK < count := (Nat.div_lt_iff_lt_mul topPos).mpr inside
    have small := Nat.mod_lt p topPos
    have key := cand _ isSplit _ small
    rw [place] at key
    cases isWinner : (splitWinners row visible topK chunk (p / topK))[p % topK]? with
    | none =>
      rw [isWinner] at key
      exact absurd key isLive
    | some c => exact ⟨p / topK, isSplit, p % topK, c, isWinner, place.symm⟩
  have same : (winnersOf candKey block (min (limitOf row visible) topK)).map name =
      winnersOf (liveKey row) (limitOf row visible) topK := by
    refine winners_merge some_ reach ?_ ?_ ?_ rfl
    · intro p mem
      obtain ⟨split, isSplit, r, c, isWinner, rfl⟩ := live p mem
      obtain ⟨-, key, -, named⟩ := winner split isSplit r c isWinner
      rw [key, named]
    · intro p pLive q qLive
      obtain ⟨split, isSplit, r, c, isWinner, rfl⟩ := live p pLive
      obtain ⟨split', isSplit', r', c', isWinner', rfl⟩ := live q qLive
      rw [(winner split isSplit r c isWinner).2.2.2, (winner split' isSplit' r' c' isWinner').2.2.2]
      exact candidates_sorted isWinner isWinner'
    · intro column
      constructor
      · rintro ⟨p, mem, rfl⟩
        obtain ⟨split, isSplit, r, c, isWinner, rfl⟩ := live p mem
        exact ⟨split, isSplit, c, mem_of_getElem? isWinner,
          (winner split isSplit r c isWinner).2.2.2⟩
      · rintro ⟨split, isSplit, c, wins, rfl⟩
        obtain ⟨r, isWinner⟩ := mem_iff_getElem?.mp wins
        obtain ⟨mem, -, -, named⟩ := winner split isSplit r c isWinner
        exact ⟨_, mem, named⟩
  obtain ⟨stores, emitted⟩ := @resident_stores candKey block _ Int topK pos (min_le_right _ _)
    narrow 0 fun p => if p < count * topK then colRow.getD p (-1) else -1
  have value : ∀ p ∈ winnersOf candKey block (min (limitOf row visible) topK),
      (if p < count * topK then colRow.getD p (-1) else -1) = (name p : Int) := by
    intro p wins
    obtain ⟨split, isSplit, r, c, isWinner, rfl⟩ := live p (bestIn_subset (mem_winnersOf.mp wins))
    have small := (List.getElem?_eq_some_iff.mp isWinner).1.trans_le splitWinners_length
    obtain ⟨-, -, col, named⟩ := winner split isSplit r c isWinner
    rw [if_pos (slot_within isSplit small), col, named]
  have isMerged : merged = mergeTile keyRow colRow (count * topK) (min (limitOf row visible) topK)
    topK block := rfl
  unfold mergeTile at isMerged
  rw [← isCand] at isMerged
  dsimp only at isMerged
  rw [isMerged, ← same]
  constructor
  · intro store
    rw [stores]
    constructor
    · rintro ⟨r, p, isWinner, rfl⟩
      refine ⟨r, name p, by rw [getElem?_map, isWinner]; rfl, ?_⟩
      rw [value p (mem_of_getElem? isWinner), Int.zero_add]
    · rintro ⟨r, c, isWinner, rfl⟩
      rw [getElem?_map, Option.map_eq_some_iff] at isWinner
      obtain ⟨p, isWinner, rfl⟩ := isWinner
      refine ⟨r, p, isWinner, ?_⟩
      rw [value p (mem_of_getElem? isWinner), Int.zero_add]
  · rw [emitted, length_map]

end Second

end FreeToken.QsaTopk
