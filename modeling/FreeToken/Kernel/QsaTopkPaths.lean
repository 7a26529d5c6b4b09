/-
**The block top-k on every path.**
-/

import FreeToken.Kernel.QsaTopkSplits

namespace FreeToken.QsaTopk

open List

section Merge

variable {row : List (BitVec 32)} {visible : BitVec 32} {topK padK chunk nSplits : Nat}
  {keyRow : List (BitVec 32)} {colRow : List Int}
  (scratch : Scratch row visible topK padK chunk nSplits keyRow colRow)
  (few : chunk < 2 ^ 15) (some_ : 0 < chunk) (padded : topK ≤ padK)

theorem writes_won {stores : List (Int × Int)} {emitted : Int} (padded : topK ≤ padK)
    (won : ∀ store ∈ stores, (∃ r c : Nat, (winnersOf (liveKey row) (limitOf row visible) topK)[r]? =
        some c ∧ store = ((r : Int), (c : Int))) ∨
      ∃ pad : Nat, (winnersOf (liveKey row) (limitOf row visible) topK).length ≤ pad ∧ pad < topK ∧
        store = ((pad : Int), -1))
    (all : ∀ r c : Nat, (winnersOf (liveKey row) (limitOf row visible) topK)[r]? = some c →
      ((r : Int), (c : Int)) ∈ stores)
    (count : emitted = ((winnersOf (liveKey row) (limitOf row visible) topK).length : Nat)) :
    Writes (stores ++ padStores padK topK 0 emitted (-1)) (topRow row visible topK) := by
  rw [count]
  apply writes_row winnersOf_le
  · intro store mem
    rcases mem_append.mp mem with isWon | isPad
    · exact won store isWon
    · obtain ⟨pad, -, behind, small, rfl⟩ := mem_padStores.mp isPad
      exact Or.inr ⟨pad, behind, small, by rw [Int.zero_add]⟩
  · intro r c isWinner
    exact mem_append_left _ (all r c isWinner)
  · intro pad behind small
    exact mem_append_right _ (mem_padStores.mpr
      ⟨pad, small.trans_le padded, behind, small, by rw [Int.zero_add]⟩)

include scratch few padded

/-- A row with one live split. -/
theorem oneSplit_writes (isSplit : 0 < nSplits) (reach : limitOf row visible ≤ chunk) :
    let alive := fun slot => decide (slot < topK ∧ keyRow.getD slot 0 ≠ 0)
    Writes (((List.range padK).filterMap fun slot : Nat =>
        if slot < topK then some ((slot : Int), if alive slot then colRow.getD slot (-1) else -1)
        else none) ++
      padStores padK topK 0 ((List.range padK).countP alive : Int) (-1)) (topRow row visible topK) := by
  intro alive
  obtain ⟨winners, isWinners⟩ : ∃ winners, winners =
    winnersOf (liveKey row) (limitOf row visible) topK := ⟨_, rfl⟩
  have first : splitWinners row visible topK chunk 0 = winners := by
    have limit : splitLimit row visible chunk 0 = limitOf row visible := by
      unfold splitLimit
      omega
    rw [isWinners, splitWinners, limit]
    apply winnersOf_congr
    intro c _
    rw [Nat.zero_mul, zero_add]
  have key : ∀ slot < topK, keyRow.getD slot 0 = (winners[slot]?).elim 0 fun c => liveKey row c := by
    intro slot small
    have isKey := scratch.key_eq few padded isSplit small
    rw [first, Nat.zero_mul, zero_add] at isKey
    rw [getD_eq_getElem?_getD, isKey]
    simp only [Nat.zero_mul, zero_add]
    rfl
  have short : winners.length ≤ topK := isWinners ▸ winnersOf_le
  have alive_iff : ∀ slot, alive slot = true ↔ slot < winners.length := by
    intro slot
    rw [decide_eq_true_iff]
    constructor
    · rintro ⟨small, live⟩
      by_contra behind
      rw [key slot small, getElem?_eq_none (not_lt.mp behind)] at live
      exact live rfl
    · intro within
      refine ⟨within.trans_le short, ?_⟩
      rw [key slot (within.trans_le short), getElem?_eq_getElem within]
      have mem : winners[slot] ∈ winnersOf (liveKey row) (limitOf row visible) topK :=
        isWinners ▸ getElem_mem within
      exact (winnersOf_live mem).2
  have col : ∀ slot c : Nat, winners[slot]? = some c → colRow.getD slot (-1) = (c : Int) := by
    intro slot c isWinner
    have isCol := scratch.col_eq few padded isSplit (first ▸ isWinner)
    rw [Nat.zero_mul, zero_add, Nat.zero_mul, zero_add] at isCol
    rw [getD_eq_getElem?_getD, isCol]
    rfl
  apply writes_won padded
  · intro store mem
    obtain ⟨slot, -, isStore⟩ := mem_filterMap.mp mem
    split at isStore
    · rename_i small
      rw [← Option.some.inj isStore, ← isWinners]
      rcases lt_or_ge slot winners.length with isWinner | behind
      · refine Or.inl ⟨slot, winners[slot], getElem?_eq_getElem isWinner, ?_⟩
        rw [if_pos ((alive_iff slot).mpr isWinner), col slot _ (getElem?_eq_getElem isWinner)]
      · refine Or.inr ⟨slot, behind, small, ?_⟩
        rw [if_neg fun live => absurd ((alive_iff slot).mp live) (not_lt.mpr behind)]
    · cases isStore
  · intro r c isWinner
    rw [← isWinners] at isWinner
    have within := (List.getElem?_eq_some_iff.mp isWinner).1
    refine mem_filterMap.mpr ⟨r, mem_range.mpr (by omega), ?_⟩
    rw [if_pos (within.trans_le short), if_pos ((alive_iff r).mpr within), col r c isWinner]
  · rw [← isWinners, countP_range]
    congr 1
    have slots : (Finset.range padK).filter (fun slot => alive slot = true) =
        Finset.range winners.length := by
      ext slot
      rw [Finset.mem_filter, Finset.mem_range, Finset.mem_range, alive_iff]
      omega
    rw [slots, Finset.card_range]

include some_

/-- Any number of splits. -/
theorem qsaTopkMergeKernel_writes {blockSmall blockMid blockFull : Nat}
    (enough : row.length ≤ nSplits * chunk) (fits : nSplits * topK ≤ blockFull)
    (narrow : blockSmall < 2 ^ 15 ∧ blockMid < 2 ^ 15 ∧ blockFull < 2 ^ 15) :
    Writes (qsaTopkMergeKernel row visible keyRow colRow topK padK chunk nSplits blockSmall blockMid
      blockFull) (topRow row visible topK) := by
  obtain ⟨count, isCount⟩ : ∃ count, count = (limitOf row visible + chunk - 1) / chunk := ⟨_, rfl⟩
  have reach : limitOf row visible ≤ count * chunk := by
    have whole := Nat.div_add_mod (limitOf row visible + chunk - 1) chunk
    have below := Nat.mod_lt (limitOf row visible + chunk - 1) some_
    rw [← isCount, Nat.mul_comm] at whole
    omega
  have within : count ≤ nSplits := by
    rw [isCount, ← Nat.lt_succ_iff, Nat.div_lt_iff_lt_mul some_, Nat.succ_mul]
    have visibleFits := (@limitOf_le row visible).trans enough
    omega
  unfold qsaTopkMergeKernel
  dsimp only
  rw [← isCount, Nat.min_eq_left within]
  have merge : ∀ block, count * topK ≤ block → block < 2 ^ 15 → 0 < min (limitOf row visible) topK →
      Writes ((mergeTile keyRow colRow (count * topK) (min (limitOf row visible) topK) topK block).1 ++
        padStores padK topK 0
          (mergeTile keyRow colRow (count * topK) (min (limitOf row visible) topK) topK block).2 (-1))
        (topRow row visible topK) := by
    intro block holds small pos
    obtain ⟨stores, emitted⟩ := mergeTile_stores scratch few some_ padded within reach pos holds
      small
    refine writes_won padded (fun store mem => Or.inl ((stores store).mp mem))
      (fun r c isWinner => (stores _).mpr ⟨r, c, isWinner, rfl⟩) emitted
  split
  · rename_i pos
    split
    · rename_i single
      have topPos : 0 < topK := by omega
      have one : count ≤ 1 := by
        rw [← Nat.one_mul topK] at single
        exact Nat.le_of_mul_le_mul_right (by rwa [Nat.one_mul] at single ⊢) topPos
      have some_ : 0 < count := by
        rw [Nat.pos_iff_ne_zero]
        rintro rfl
        rw [Nat.zero_mul] at reach
        omega
      refine oneSplit_writes scratch few padded (some_.trans_le within) (reach.trans ?_)
      exact (Nat.mul_le_mul_right chunk one).trans_eq (Nat.one_mul chunk)
    · split
      · rename_i holds
        exact merge blockSmall holds narrow.1 pos
      · split
        · rename_i holds
          exact merge blockMid holds narrow.2.1 pos
        · exact merge blockFull ((Nat.mul_le_mul_right topK within).trans fits) narrow.2.2 pos
  · rename_i none
    exact writes_none padded (by omega)

end Merge

/-! ### The plan -/

theorem nextPowerOf2_le {n k : Nat} (within : n ≤ 2 ^ k) : nextPowerOf2 n ≤ 2 ^ k :=
  Nat.pow_le_pow_right (by decide) ((Nat.clog_le_iff_le_pow (by decide)).mpr within)

theorem nextPowerOf2_pos (n : Nat) : 0 < nextPowerOf2 n := Nat.two_pow_pos _

/-- What the plan of the splits keeps. -/
theorem splitPlan_spec {cols topK chunk nSplits : Nat}
    (planned : splitPlan cols topK = some (chunk, nSplits)) :
    0 < chunk ∧ chunk ≤ maxResident ∧ cols ≤ nSplits * chunk ∧ nSplits * topK ≤ maxResident := by
  obtain ⟨-, planned⟩ := Option.ite_none_left_eq_some.mp planned
  dsimp only at planned
  split at planned
  · cases planned
  · rename_i several
    obtain ⟨maxSplits, isMax⟩ : ∃ maxSplits, maxSplits = maxResident / nextPowerOf2 topK := ⟨_, rfl⟩
    rw [← isMax] at planned several
    obtain ⟨width, isWidth⟩ : ∃ width, width =
      max minChunk (nextPowerOf2 ((cols + maxSplits - 1) / maxSplits)) := ⟨_, rfl⟩
    rw [← isWidth] at planned
    split at planned
    · cases planned
    · rename_i resident
      split at planned
      · cases planned
      · obtain ⟨rfl, rfl⟩ := Prod.mk.inj (Option.some.inj planned)
        have pos : 0 < width := by
          rw [isWidth]
          exact Nat.lt_of_lt_of_le (by decide) (le_max_left _ _)
        have ceil : ∀ n d : Nat, 0 < d → n ≤ (n + d - 1) / d * d := by
          intro n d some_
          have whole := Nat.div_add_mod (n + d - 1) d
          have below := Nat.mod_lt (n + d - 1) some_
          rw [Nat.mul_comm] at whole
          omega
        have splits : (cols + width - 1) / width ≤ maxSplits := by
          have wide : (cols + maxSplits - 1) / maxSplits ≤ width := by
            rw [isWidth]
            exact (le_nextPowerOf2 _).trans (le_max_right _ _)
          have most := (ceil cols maxSplits (by omega)).trans (Nat.mul_le_mul_right _ wide)
          rw [← Nat.lt_succ_iff, Nat.div_lt_iff_lt_mul pos, Nat.succ_mul, Nat.mul_comm]
          omega
        refine ⟨pos, not_lt.mp resident, ceil cols width pos, ?_⟩
        calc (cols + width - 1) / width * topK
            ≤ maxSplits * nextPowerOf2 topK := Nat.mul_le_mul splits (le_nextPowerOf2 topK)
          _ ≤ maxResident := isMax ▸ Nat.div_mul_le_self _ _
/-- **All paths write the same row**. -/
theorem qsa_block_topk_exact (row : List (BitVec 32)) (visible : BitVec 32) (topK : Nat) :
    (winnersOf (liveKey row) (limitOf row visible) topK).length =
        min (liveBelow (liveKey row) (limitOf row visible)).card topK ∧
    (∀ stores, QsaBlockTopk row visible topK stores → Writes stores (topRow row visible topK)) ∧
    (∀ blockN, row.length ≤ blockN → 0 < blockN → blockN < 2 ^ 15 →
      Writes (qsaBlockTopkKernel row visible topK (nextPowerOf2 topK) blockN true)
        (topRow row visible topK)) ∧
    (∀ blockN, 0 < blockN → blockN < 2 ^ 15 →
      Writes (qsaBlockTopkKernel row visible topK (nextPowerOf2 topK) blockN false)
        (topRow row visible topK)) ∧
    ∀ chunk nSplits keyRow colRow blockSmall blockMid blockFull, 0 < chunk → chunk < 2 ^ 15 →
      row.length ≤ nSplits * chunk → nSplits * topK ≤ blockFull →
      blockSmall < 2 ^ 15 ∧ blockMid < 2 ^ 15 ∧ blockFull < 2 ^ 15 →
      Scratch row visible topK (nextPowerOf2 topK) chunk nSplits keyRow colRow →
      Writes (qsaTopkMergeKernel row visible keyRow colRow topK (nextPowerOf2 topK) chunk nSplits
        blockSmall blockMid blockFull) (topRow row visible topK) := by
  have padded := le_nextPowerOf2 topK
  refine ⟨winnersOf_length, fun stores launched => ?_, fun blockN holds some_ few => ?_,
    fun blockN some_ few => ?_, ?_⟩
  · cases launched with
    | empty =>
      apply writes_of_mem
      · exact fun store none => absurd none not_mem_nil
      · intro p within
        rw [topRow, packRow_length winnersOf_le] at within
        exact absurd within (Nat.not_lt_zero p)
    | whole _ _ isBlock =>
      have most : maxBlockN < 2 ^ 15 := by decide
      refine qsaBlockTopkKernel_writes padded ?_ ?_ of_decide_eq_true
      · rw [isBlock]
        exact lt_min (by decide) (nextPowerOf2_pos _)
      · rw [isBlock]
        exact (min_le_left _ _).trans_lt most
    | split _ planned scratch isBlock =>
      obtain ⟨some_, resident, enough, fits⟩ := splitPlan_spec planned
      have merged := nextPowerOf2_le (show _ ≤ 2 ^ 13 from fits)
      rw [← isBlock] at merged
      have small : (2 : Nat) ^ 13 < 2 ^ 15 := by decide
      exact qsaTopkMergeKernel_writes scratch (resident.trans_lt (by decide)) some_ padded enough
        (isBlock ▸ le_nextPowerOf2 _) ⟨by omega, by omega, by omega⟩
  · exact qsaBlockTopkKernel_writes padded some_ few fun _ => holds
  · exact qsaBlockTopkKernel_writes padded some_ few fun single => by cases single
  · intro chunk nSplits keyRow colRow blockSmall blockMid blockFull some_ few enough fits narrow scratch
    exact qsaTopkMergeKernel_writes scratch few some_ padded enough fits narrow

/-- A one, a NaN, a two and a one: the ones are equal, and the first wins. -/
theorem qsa_block_topk_exact_four :
    (∃ stores, QsaBlockTopk [0x3F800000#32, 0x7FC00000#32, 0x40000000#32, 0x3F800000#32] 4#32 2 stores ∧
      Writes stores [0, 2]) ∧
    Writes (qsaBlockTopkKernel [0x3F800000#32, 0x7FC00000#32, 0x40000000#32, 0x3F800000#32] 4#32 2
      (nextPowerOf2 2) 4 true) [0, 2] ∧
    Writes (qsaBlockTopkKernel [0x3F800000#32, 0x7FC00000#32, 0x40000000#32, 0x3F800000#32] 4#32 2
      (nextPowerOf2 2) 2 false) [0, 2] ∧
    ∃ keyRow colRow, Writes (qsaTopkMergeKernel
      [0x3F800000#32, 0x7FC00000#32, 0x40000000#32, 0x3F800000#32] 4#32 keyRow colRow 2
      (nextPowerOf2 2) 2 2 4 4 4) [0, 2] := by
  obtain ⟨-, launched, single, tiled, split⟩ := qsa_block_topk_exact
    [0x3F800000#32, 0x7FC00000#32, 0x40000000#32, 0x3F800000#32] 4#32 2
  have output : topRow [0x3F800000#32, 0x7FC00000#32, 0x40000000#32, 0x3F800000#32] 4#32 2 =
      [0, 2] := by
    decide +kernel
  rw [output] at launched single tiled split
  have whole := @QsaBlockTopk.whole [0x3F800000#32, 0x7FC00000#32, 0x40000000#32, 0x3F800000#32] 4#32 2
    _ (by decide) (if_pos (Or.inr (by decide))) rfl
  exact ⟨⟨_, whole, launched _ whole⟩, single 4 (by decide) (by decide) (by decide),
    tiled 2 (by decide) (by decide), _, _, split 2 2 _ _ 4 4 4 (by decide) (by decide) (by decide)
      (by decide) (by decide)
      ⟨⟨replicate 4 7, rfl, _, Perm.refl _, rfl⟩, ⟨replicate 4 7, rfl, _, Perm.refl _, rfl⟩⟩⟩

end FreeToken.QsaTopk
