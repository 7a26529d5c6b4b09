/-
**Lists of lists, one behind the other.**
-/

import Mathlib.Data.List.GetD
import Mathlib.Algebra.Order.BigOperators.Group.List
import Mathlib.Algebra.GroupWithZero.Nat

namespace FreeToken

open List

/-- Where each part begins, and where the last one ends. -/
def cumsum (lens : List Nat) : List Nat :=
  (List.range (lens.length + 1)).map fun i => (lens.take i).sum

section Cumsum

variable {lens : List Nat}

theorem cumsum_getD {i : Nat} (within : i ≤ lens.length) (default : Nat) :
    (cumsum lens).getD i default = (lens.take i).sum := by
  unfold cumsum
  rw [getD_eq_getElem?_getD, getElem?_map, getElem?_range (by omega)]
  rfl

theorem sum_take_succ {i : Nat} (within : i < lens.length) :
    (lens.take (i + 1)).sum = (lens.take i).sum + lens[i] := by
  rw [take_succ_eq_append_getElem within, sum_append, sum_singleton]

theorem sum_take_mono {i j : Nat} (ordered : i ≤ j) : (lens.take i).sum ≤ (lens.take j).sum := by
  obtain ⟨more, rfl⟩ := Nat.exists_eq_add_of_le ordered
  rw [take_add, sum_append]
  exact Nat.le_add_right _ _

theorem countP_range_le {count bound : Nat} (within : bound < count) :
    (List.range count).countP (· ≤ bound) = bound + 1 := by
  induction count with
  | zero => omega
  | succ count ih =>
    rw [range_succ, countP_append, countP_singleton]
    rcases lt_or_eq_of_le (Nat.le_of_lt_succ within) with pre | rfl
    · rw [ih pre, if_neg (by simpa using pre)]
    · have all : (range bound).countP (· ≤ bound) = bound := by
        refine (countP_eq_length.mpr fun i mem => ?_).trans length_range
        simpa using (mem_range.mp mem).le
      rw [all, if_pos (by simp)]

/-- A binary search among these finds the part that a position is in. -/
theorem cumsum_countP {part place : Nat} (isPart : part < lens.length)
    (lt : place < lens[part]) :
    (cumsum lens).countP (· ≤ (lens.take part).sum + place) = part + 1 := by
  have compare : ∀ i ∈ range (lens.length + 1),
      (decide ((lens.take i).sum ≤ (lens.take part).sum + place) = true ↔
        decide (i ≤ part) = true) := by
    intro i mem
    rw [decide_eq_true_iff, decide_eq_true_iff]
    constructor
    · intro pre
      by_contra after
      have later := @sum_take_mono lens _ _ (show part + 1 ≤ i by omega)
      rw [sum_take_succ isPart] at later
      omega
    · intro pre
      exact (sum_take_mono pre).trans (Nat.le_add_right _ _)
  unfold cumsum
  rw [countP_map, ← countP_range_le (show part < lens.length + 1 by omega)]
  exact countP_congr compare

theorem split_unique {part other place there : Nat} {isPart : part < lens.length}
    {isOther : other < lens.length} (lt : place < lens[part]) (within : there < lens[other])
    (same : (lens.take part).sum + place = (lens.take other).sum + there) :
    part = other ∧ place = there := by
  have first := cumsum_countP isPart lt
  have second := cumsum_countP isOther within
  rw [same] at first
  obtain rfl : part = other := Nat.succ.inj (first.symm.trans second)
  exact ⟨rfl, add_left_cancel same⟩

theorem split_position {pos : Nat} (lt : pos < lens.sum) :
    ∃ (part : Nat) (isPart : part < lens.length) (place : Nat),
      place < lens[part] ∧ pos = (lens.take part).sum + place := by
  induction lens generalizing pos with
  | nil => exact absurd lt (Nat.not_lt_zero _)
  | cons len lens ih =>
    by_cases here : pos < len
    · exact ⟨0, Nat.zero_lt_succ _, pos, here, (Nat.zero_add _).symm⟩
    · rw [sum_cons] at lt
      obtain ⟨part, isPart, place, within, same⟩ := @ih (pos - len) (by omega)
      refine ⟨part + 1, Nat.succ_lt_succ isPart, place, within, ?_⟩
      rw [take_succ_cons, sum_cons]
      omega

end Cumsum

section Parts

variable {α β : Type} {items : List α} {parts : α → List β}

theorem flatMap_getElem? {part place : Nat} (isPart : part < items.length)
    (lt : place < (parts items[part]).length) :
    (items.flatMap parts)[((items.map fun item => (parts item).length).take part).sum + place]? =
      (parts items[part])[place]? := by
  induction items generalizing part with
  | nil => exact absurd isPart (Nat.not_lt_zero _)
  | cons item items ih =>
    cases part with
    | zero =>
      have first : place < (parts item).length := lt
      rw [flatMap_cons, take_zero, sum_nil, Nat.zero_add, getElem?_append_left first]
      rfl
    | succ part =>
      rw [map_cons, take_succ_cons, sum_cons, flatMap_cons, Nat.add_assoc,
        getElem?_append_right (Nat.le_add_right _ _), Nat.add_sub_cancel_left]
      exact ih (Nat.lt_of_succ_lt_succ isPart) lt

/-- To go through all positions is to go through those of each part. -/
theorem map_range_flatMap (lens : List Nat) (at_ : Nat → β) (row : Nat → Nat → β)
    (same : ∀ part (isPart : part < lens.length) place, place < lens[part] →
      at_ ((lens.take part).sum + place) = row part place) :
    (List.range lens.sum).map at_ =
      lens.zipIdx.flatMap fun (len, part) => (List.range len).map (row part) := by
  have shift : ∀ (rest done : List Nat), lens = done ++ rest → (range' done.sum rest.sum).map at_ =
        (rest.zipIdx done.length).flatMap fun (len, part) => (range len).map (row part) := by
    intro rest
    induction rest with
    | nil => exact fun _ _ => rfl
    | cons len rest ih =>
      intro done whole
      have later := ih (done ++ [len]) (by rw [whole, append_assoc]; rfl)
      rw [sum_append, sum_singleton, length_append, length_singleton] at later
      rw [sum_cons, ← range'_append_1, map_append, later, zipIdx_cons, flatMap_cons]
      congr 1
      rw [range'_eq_map_range, map_map]
      refine map_congr_left fun place mem => ?_
      have isPart : done.length < lens.length := by
        rw [whole, length_append, length_cons]
        omega
      have isLen : lens[done.length] = len := by simp [whole]
      have isSum : (lens.take done.length).sum = done.sum := by rw [whole, take_left]
      rw [← same done.length isPart place (isLen ▸ mem_range.mp mem), isSum]
      rfl
  have whole := shift lens [] rfl
  rw [sum_nil, ← range_eq_range'] at whole
  exact whole

end Parts

end FreeToken
