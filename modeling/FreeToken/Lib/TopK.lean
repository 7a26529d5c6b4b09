/-
**The best of some scores.**
-/

import Mathlib.Data.Finset.Card
import Mathlib.Data.List.GetD
import Mathlib.Order.WithBot

namespace FreeToken

open List Finset

variable {σ : Type} [LinearOrder σ] (scores : List (WithBot σ))

def scoreAt (col : Nat) : WithBot σ := scores.getD col ⊥

/-- **A top-k**: distinct columns, best first, and no better column is left out. -/
structure IsTopK (scores : List (WithBot σ)) (k : Nat) (picks : List Nat) : Prop where
  length : picks.length = k
  nodup : picks.Nodup
  inside : ∀ pick ∈ picks, pick < scores.length
  sorted : picks.Pairwise fun first second => scoreAt scores second ≤ scoreAt scores first
  best : ∀ pick ∈ picks, ∀ other < scores.length, other ∉ picks →
    scoreAt scores other ≤ scoreAt scores pick

variable (score : Nat → σ)

/-- The live columns that fewer than `k` live columns beat. -/
def bestBelow (live k : Nat) : Finset Nat :=
  (Finset.range live).filter fun i =>
    ((Finset.range live).filter fun j => score i < score j).card < k

theorem bestBelow_all {live k : Nat} (fits : live ≤ k) :
    bestBelow score live k = Finset.range live := by
  refine filter_true_of_mem fun i mem => ?_
  have proper : (Finset.range live).filter (fun j => score i < score j) ⊂ Finset.range live :=
    filter_ssubset.mpr ⟨i, mem, lt_irrefl _⟩
  have fewer := card_lt_card proper
  rw [card_range] at fewer
  omega

theorem bestBelow_min {live cols : Nat} (within : live ≤ cols) (k : Nat) :
    bestBelow score live (min k cols) = bestBelow score live k := by
  rcases le_total k cols with narrow | wide
  · rw [min_eq_left narrow]
  · rw [min_eq_right wide, bestBelow_all score within, bestBelow_all score (within.trans wide)]

/-- **A row of picks**: the best live columns in some order, and `-1` behind them. -/
def PacksBest (live k : Nat) (picks : List Int) : Prop :=
  ∃ order : List Nat, order.Nodup ∧ order.length = min live k ∧
    order.toFinset = bestBelow score live k ∧
    picks = order.map (fun col : Nat => (col : Int)) ++ List.replicate (k - order.length) (-1)

namespace PacksBest

variable {score : Nat → σ} {live k : Nat} {picks : List Int}

theorem length (packs : PacksBest score live k picks) : picks.length = k := by
  obtain ⟨order, -, length, -, rfl⟩ := packs
  rw [length_append, length_map, length_replicate]
  omega

end PacksBest

namespace IsTopK

variable {scores : List (WithBot σ)} {k live : Nat} {picks : List Nat} {score : Nat → σ}
  (top : IsTopK scores k picks) (within : live ≤ scores.length)
  (alive : ∀ i < live, scoreAt scores i = score i)
  (dead : ∀ i, live ≤ i → scoreAt scores i = ⊥)

include alive dead in
theorem live_of_le {i j : Nat} (isLive : i < live) (better : scoreAt scores i ≤ scoreAt scores j) :
    j < live := by
  by_contra isDead
  rw [dead j (not_lt.mp isDead), alive i isLive, le_bot_iff] at better
  exact WithBot.coe_ne_bot better

include top alive dead in
theorem prefix_live {r s : Nat} (ordered : r ≤ s) (inPicks : s < picks.length)
    (isLive : picks[s] < live) : picks[r] < live := by
  rcases lt_or_eq_of_le ordered with pre | rfl
  · exact live_of_le alive dead isLive
      (pairwise_iff_getElem.mp top.sorted r s (by omega) inPicks pre)
  · exact isLive

include top within alive dead in
theorem live_iff {r : Nat} (inPicks : r < picks.length) : picks[r] < live ↔ r < min live k := by
  have length := top.length
  constructor
  · intro isLive
    -- the picks up to here are distinct live columns
    have subset : (picks.take (r + 1)).toFinset ⊆ Finset.range live := by
      intro i mem
      rw [mem_toFinset] at mem
      obtain ⟨s, inTake, rfl⟩ := getElem_of_mem mem
      rw [length_take] at inTake
      rw [getElem_take, Finset.mem_range]
      exact top.prefix_live alive dead (by omega) inPicks isLive
    have count := card_le_card subset
    rw [toFinset_card_of_nodup (top.nodup.sublist (take_sublist _ _)),
      length_take, card_range] at count
    omega
  · intro early
    by_contra isDead
    -- a live column is left out
    have few : (picks.toFinset.filter (· < live)).card < (Finset.range live).card := by
      have subset : picks.toFinset.filter (· < live) ⊆ (picks.take r).toFinset := by
        intro i mem
        rw [Finset.mem_filter, mem_toFinset] at mem
        obtain ⟨s, lt, rfl⟩ := getElem_of_mem mem.1
        have pre : s < r := by
          by_contra late
          exact isDead (top.prefix_live alive dead (not_lt.mp late) lt mem.2)
        rw [mem_toFinset]
        refine mem_iff_getElem.mpr ⟨s, ?_, getElem_take⟩
        rw [length_take]
        omega
      have count := card_le_card subset
      have small := toFinset_card_le (picks.take r)
      rw [length_take] at small
      rw [card_range]
      omega
    obtain ⟨j, isLive, out⟩ := exists_mem_notMem_of_card_lt_card few
    rw [Finset.mem_range] at isLive
    have left : j ∉ picks := by
      intro lt
      exact out (Finset.mem_filter.mpr ⟨mem_toFinset.mpr lt, isLive⟩)
    have worse := top.best _ (getElem_mem inPicks) j (by omega) left
    exact isDead (live_of_le alive dead isLive worse)

include top within alive dead in
theorem live_picks (distinct : ∀ i < live, ∀ j < live, score i = score j → i = j) :
    (picks.take (min live k)).toFinset = bestBelow score live k := by
  have length := top.length
  have mem_take : ∀ i, i ∈ picks.take (min live k) ↔ i ∈ picks ∧ i < live := by
    intro i
    constructor
    · intro mem
      obtain ⟨s, inTake, rfl⟩ := getElem_of_mem mem
      rw [length_take] at inTake
      rw [getElem_take]
      exact ⟨getElem_mem _, (top.live_iff within alive dead (by omega)).mpr (by omega)⟩
    · rintro ⟨mem, isLive⟩
      obtain ⟨s, lt, rfl⟩ := getElem_of_mem mem
      have early := (top.live_iff within alive dead lt).mp isLive
      refine mem_iff_getElem.mpr ⟨s, ?_, getElem_take⟩
      rw [length_take]
      omega
  ext i
  rw [mem_toFinset, mem_take, bestBelow, Finset.mem_filter, Finset.mem_range]
  constructor
  · rintro ⟨mem, isLive⟩
    refine ⟨isLive, ?_⟩
    -- those that beat a pick are picks
    have subset : insert i ((Finset.range live).filter fun j => score i < score j) ⊆
        picks.toFinset := by
      intro j inSet
      rw [mem_insert, Finset.mem_filter, Finset.mem_range] at inSet
      rw [mem_toFinset]
      rcases inSet with rfl | ⟨jLive, beats⟩
      · exact mem
      · by_contra out
        have worse := top.best i mem j (by omega) out
        rw [alive i isLive, alive j jLive, WithBot.coe_le_coe] at worse
        exact absurd beats (not_lt.mpr worse)
    have count := card_le_card subset
    have small := toFinset_card_le picks
    rw [card_insert_of_notMem (by simp)] at count
    omega
  · rintro ⟨isLive, few⟩
    refine ⟨?_, isLive⟩
    by_contra out
    -- all picks beat a live column that is left out
    have subset : picks.toFinset ⊆ (Finset.range live).filter fun j => score i < score j := by
      intro j mem
      rw [mem_toFinset] at mem
      have worse := top.best j mem i (by omega) out
      have jLive := live_of_le alive dead isLive worse
      rw [alive i isLive, alive j jLive, WithBot.coe_le_coe] at worse
      rw [Finset.mem_filter, Finset.mem_range]
      refine ⟨jLive, lt_of_le_of_ne worse fun same => ?_⟩
      exact out (distinct i isLive j jLive same ▸ mem)
    have count := card_le_card subset
    rw [toFinset_card_of_nodup top.nodup] at count
    omega

include top within alive dead in
/-- A top-k whose dead picks are marked. -/
theorem packs (distinct : ∀ i < live, ∀ j < live, score i = score j → i = j) :
    PacksBest score live k
      (picks.map fun pick : Nat => if live ≤ pick then (-1 : Int) else (pick : Int)) := by
  have length := top.length
  have taken : (picks.take (min live k)).length = min live k := by
    rw [length_take]
    omega
  refine ⟨picks.take (min live k), top.nodup.sublist (take_sublist _ _), taken,
    top.live_picks within alive dead distinct, ?_⟩
  rw [taken]
  apply ext_getElem
  · simp [length]
  · intro r inPicks _
    rw [length_map] at inPicks
    rw [getElem_map]
    by_cases early : r < min live k
    · have isLive := (top.live_iff within alive dead inPicks).mpr early
      rw [if_neg (by omega), getElem_append_left (by rw [length_map, taken]; exact early),
        getElem_map, getElem_take]
    · have isDead := mt (top.live_iff within alive dead inPicks).mp early
      rw [if_pos (by omega), getElem_append_right (by simp; omega), getElem_replicate]

end IsTopK

/-- The top-k of a stable sort. -/
def sortedTopk (k : Nat) : List Nat :=
  ((List.range scores.length).mergeSort fun first second =>
    decide (scoreAt scores second ≤ scoreAt scores first)).take k

theorem sortedTopk_isTopK {k : Nat} (fits : k ≤ scores.length) :
    IsTopK scores k (sortedTopk scores k) := by
  unfold sortedTopk
  set sorted := (List.range scores.length).mergeSort fun first second =>
    decide (scoreAt scores second ≤ scoreAt scores first) with isSort
  have perm : sorted.Perm (List.range scores.length) := mergeSort_perm _ _
  have ordered : sorted.Pairwise fun first second =>
      scoreAt scores second ≤ scoreAt scores first := by
    have pairs := @pairwise_mergeSort _ (fun first second =>
      decide (scoreAt scores second ≤ scoreAt scores first))
      (fun a b c first second => decide_eq_true
        ((of_decide_eq_true second).trans (of_decide_eq_true first)))
      (fun a b => by
        rw [Bool.or_eq_true, decide_eq_true_iff, decide_eq_true_iff]
        exact le_total _ _) (List.range scores.length)
    exact pairs.imp fun le => of_decide_eq_true le
  have nodup : sorted.Nodup := perm.nodup_iff.mpr nodup_range
  have length : sorted.length = scores.length := by rw [perm.length_eq, length_range]
  refine ⟨?_, nodup.sublist (take_sublist _ _), fun pick mem => ?_,
    ordered.sublist (take_sublist _ _), fun pick mem other lt out => ?_⟩
  · rw [length_take]
    omega
  · exact List.mem_range.mp (perm.mem_iff.mp (mem_of_mem_take mem))
  · -- what is left out is sorted behind what is taken
    have all : other ∈ sorted := perm.mem_iff.mpr (List.mem_range.mpr lt)
    rw [← take_append_drop k sorted] at all ordered
    rcases mem_append.mp all with taken | left
    · exact absurd taken out
    · exact (pairwise_append.mp ordered).2.2 pick mem other left

end FreeToken
