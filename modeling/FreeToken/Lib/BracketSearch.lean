/-
**A search in brackets, with a weight on every entry.**
-/

import Mathlib.Algebra.Order.Group.Defs
import Mathlib.Algebra.Order.BigOperators.Group.List
import Mathlib.Order.Bounds.Defs

namespace FreeToken

open List

section Sums

variable {M : Type} [AddCommMonoid M]

/-- A sum over the bins from one on. -/
def fromBin (n : Nat) (h : Nat → M) (j : Nat) : M :=
  ((List.range n).map fun i => if j ≤ i then h i else 0).sum

theorem sum_map_comm {α β : Type} (xs : List α) (ys : List β) (f : α → β → M) :
    (xs.map fun x => (ys.map (f x)).sum).sum = (ys.map fun y => (xs.map fun x => f x y).sum).sum := by
  induction xs with
  | nil => simp
  | cons x xs ih =>
    simp only [map_cons, sum_cons, ih]
    rw [← sum_map_add]

theorem sum_ite_eq_range (n k : Nat) (x : M) :
    ((List.range n).map fun i => if i = k then x else 0).sum = if k < n then x else 0 := by
  induction n with
  | zero => rfl
  | succ n ih =>
    rw [range_succ, map_append, sum_append, ih]
    rcases lt_trichotomy k n with less | same | more
    · simp [less, Nat.lt_succ_of_lt less, ne_of_gt less]
    · simp [same]
    · simp [not_lt_of_gt more, ne_of_lt more, show ¬ k < n + 1 by omega]

end Sums

section Weights

variable {M : Type} [AddCommGroup M] (entries : List Nat) (weight : Nat → M)

/-- The weight of the entries from a value on. -/
def tailWeight (v : Nat) : M := (entries.map fun y => if v ≤ y then weight y else 0).sum

/-- The weight of the entries in one bin of a bracket. -/
def binWeight (lo width size j : Nat) : M :=
  (entries.map fun y =>
    if lo ≤ y ∧ y < lo + width ∧ (y - lo) / size = j then weight y else 0).sum

variable (lo : Nat) {size m n : Nat}

/-- The bins from one on, with the weight behind the bracket, are the tail from the start of that
bin. -/
theorem tailWeight_bins (pos : 0 < size) (reach : m ≤ n) {j : Nat} (lt : j ≤ m) :
    tailWeight entries weight (lo + m * size) +
        fromBin n (binWeight entries weight lo (m * size) size) j =
      tailWeight entries weight (lo + j * size) := by
  unfold fromBin tailWeight binWeight
  have each : ∀ i : Nat, (if j ≤ i then
      (entries.map fun y => if lo ≤ y ∧ y < lo + m * size ∧ (y - lo) / size = i then weight y
        else 0).sum else 0) =
      (entries.map fun y => if j ≤ i then
        if lo ≤ y ∧ y < lo + m * size ∧ (y - lo) / size = i then weight y else 0 else 0).sum := by
    intro i
    split
    · rfl
    · simp
  simp only [each]
  rw [sum_map_comm, ← sum_map_add]
  refine congrArg sum (map_congr_left fun y _ => ?_)
  have atBin : ∀ i : Nat, (if j ≤ i then
      if lo ≤ y ∧ y < lo + m * size ∧ (y - lo) / size = i then weight y else 0 else 0) =
      if i = (y - lo) / size then
        if lo ≤ y ∧ y < lo + m * size ∧ j ≤ (y - lo) / size then weight y else 0 else 0 := by
    intro i
    by_cases same : i = (y - lo) / size
    · subst same
      simp only [and_true, ← ite_and]
      exact if_congr (by tauto) rfl rfl
    · rw [if_neg same, ite_eq_right_iff]
      intro _
      exact if_neg fun holds => same holds.2.2.symm
  simp only [atBin]
  rw [sum_ite_eq_range]
  have starts : lo + j * size ≤ y ↔ lo ≤ y ∧ j ≤ (y - lo) / size := by
    rw [Nat.le_div_iff_mul_le pos]
    constructor
    · intro reached
      exact ⟨by omega, by omega⟩
    · rintro ⟨low, reached⟩
      omega
  have order : j * size ≤ m * size := Nat.mul_le_mul_right size lt
  by_cases behind : lo + m * size ≤ y
  · have outside : ¬ (lo ≤ y ∧ y < lo + m * size ∧ j ≤ (y - lo) / size) := fun holds =>
      absurd holds.2.1 (not_lt.mpr behind)
    rw [if_pos behind, if_neg outside, ite_self, add_zero, if_pos (show lo + j * size ≤ y by omega)]
  · rw [if_neg behind, zero_add]
    by_cases reached : lo + j * size ≤ y
    · obtain ⟨low, bin⟩ := starts.mp reached
      have few : (y - lo) / size < n := by
        refine lt_of_lt_of_le ?_ reach
        rw [Nat.div_lt_iff_lt_mul pos]
        omega
      rw [if_pos few, if_pos ⟨low, by omega, bin⟩, if_pos reached]
    · rw [if_neg reached]
      have outside : ¬ (lo ≤ y ∧ y < lo + m * size ∧ j ≤ (y - lo) / size) := fun holds =>
        reached (starts.mpr ⟨holds.1, holds.2.2⟩)
      rw [if_neg outside, ite_self]

end Weights

section Search

variable {M : Type} [AddCommGroup M] [LinearOrder M] [IsOrderedAddMonoid M]
  {entries : List Nat} {weight : Nat → M} (nonneg : ∀ y, 0 ≤ weight y)

include nonneg in
theorem tailWeight_anti {v v' : Nat} (less : v ≤ v') :
    tailWeight entries weight v' ≤ tailWeight entries weight v := by
  apply sum_le_sum
  intro y _
  by_cases reached : v' ≤ y
  · rw [if_pos reached, if_pos (less.trans reached)]
  · rw [if_neg reached]
    split
    · exact nonneg y
    · exact le_rfl

include nonneg in
theorem binWeight_nonneg {lo width size : Nat} (j : Nat) :
    0 ≤ binWeight entries weight lo width size j := by
  refine sum_nonneg fun x mem => ?_
  obtain ⟨y, -, rfl⟩ := mem_map.mp mem
  split
  · exact nonneg y
  · exact le_rfl

theorem fromBin_anti {h : Nat → M} (nonneg : ∀ j, 0 ≤ h j) {n j j' : Nat} (less : j ≤ j') :
    fromBin n h j' ≤ fromBin n h j := by
  apply sum_le_sum
  intro i _
  by_cases bin : j' ≤ i
  · rw [if_pos bin, if_pos (less.trans bin)]
  · rw [if_neg bin]
    split
    · exact nonneg i
    · exact le_rfl

/-- **A bracket in which the weight reaches a target**, and the weight behind it. -/
structure Bracket (entries : List Nat) (weight : Nat → M) (target : M) (lo width : Nat) (above : M) :
    Prop where
  behind : above = tailWeight entries weight (lo + width)
  beyond : above < target
  reached : target ≤ tailWeight entries weight lo

namespace Bracket

variable {target above : M} {lo size m n j : Nat}

omit [IsOrderedAddMonoid M] in
/-- The last bin that reaches the target is the next bracket. -/
theorem next (bracket : Bracket entries weight target lo (m * size) above) (pos : 0 < size)
    (reach : m ≤ n) (lt : j < m)
    (ok : target ≤ above + fromBin n (binWeight entries weight lo (m * size) size) j)
    (last : above + fromBin n (binWeight entries weight lo (m * size) size) (j + 1) < target) :
    Bracket entries weight target (lo + j * size) size
      (above + fromBin n (binWeight entries weight lo (m * size) size) (j + 1)) := by
  have start := tailWeight_bins entries weight lo pos reach lt.le
  have stop := tailWeight_bins entries weight lo pos reach (show j + 1 ≤ m from lt)
  rw [← bracket.behind] at start stop
  refine ⟨?_, last, ?_⟩
  · rw [stop, Nat.succ_mul, add_assoc]
  · rw [← start]
    exact ok

omit [IsOrderedAddMonoid M] in
theorem first (bracket : Bracket entries weight target lo (m * size) above) (pos : 0 < size)
    (reach : m ≤ n) :
    target ≤ above + fromBin n (binWeight entries weight lo (m * size) size) 0 := by
  have start := tailWeight_bins entries weight lo pos reach (Nat.zero_le m)
  rw [← bracket.behind, Nat.zero_mul, Nat.add_zero] at start
  rw [start]
  exact bracket.reached

include nonneg in
theorem bins_end (bracket : Bracket entries weight target lo (m * size) above) (pos : 0 < size)
    (reach : m ≤ n)
    (ok : target ≤ above + fromBin n (binWeight entries weight lo (m * size) size) j) : j < m := by
  by_contra past
  refine absurd (lt_of_lt_of_le bracket.beyond ok) (not_lt.mpr ?_)
  have none : fromBin n (binWeight entries weight lo (m * size) size) m = 0 := by
    have stop := tailWeight_bins entries weight lo pos reach (le_refl m)
    exact left_eq_add.mp stop.symm
  have fewer : fromBin n (binWeight entries weight lo (m * size) size) j ≤
      fromBin n (binWeight entries weight lo (m * size) size) m :=
    fromBin_anti (binWeight_nonneg nonneg) (not_lt.mp past)
  rw [none] at fewer
  simpa using fewer

include nonneg in
/-- A bracket of one value is the largest that reaches the target. -/
theorem greatest (bracket : Bracket entries weight target lo 1 above) :
    IsGreatest {v | target ≤ tailWeight entries weight v} lo := by
  refine ⟨bracket.reached, fun v reached => ?_⟩
  by_contra more
  refine absurd (lt_of_le_of_lt reached ?_) (lt_irrefl _)
  refine lt_of_le_of_lt (tailWeight_anti nonneg (show lo + 1 ≤ v by omega)) ?_
  rw [← bracket.behind]
  exact bracket.beyond

omit [IsOrderedAddMonoid M] in
/-- An entry lies in each bracket. -/
theorem entry (bracket : Bracket entries weight target lo size above) :
    ∃ y ∈ entries, lo ≤ y ∧ y < lo + size := by
  by_contra missing
  refine absurd (lt_of_lt_of_le bracket.beyond bracket.reached) (not_lt.mpr (le_of_eq ?_))
  rw [bracket.behind]
  refine congrArg sum (map_congr_left fun y mem => ?_)
  have other : ¬ (lo ≤ y ∧ y < lo + size) := fun within => missing ⟨y, mem, within⟩
  exact if_congr (by omega) rfl rfl

end Bracket

end Search

end FreeToken
