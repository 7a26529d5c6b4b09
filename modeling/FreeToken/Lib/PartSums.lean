/-
**Sums that are made up of parts.**
-/

import Mathlib.Algebra.BigOperators.Intervals

namespace FreeToken

open List

open scoped BigOperators

variable {M : Type} [AddCommMonoid M]

/-- A loop that adds. -/
theorem foldl_add_range (term : Nat → M) (count : Nat) :
    (List.range count).foldl (fun acc k => acc + term k) 0 = ∑ k ∈ Finset.range count, term k := by
  induction count with
  | zero => rfl
  | succ count ih =>
    rw [range_succ, foldl_append, ih, Finset.sum_range_succ]
    rfl

/-- The same in one lane of a tensor. -/
theorem foldl_add_lane {ι : Type} {term : Nat → M} {step : (ι → M) → Nat → ι → M} {lane : ι}
    {count : Nat} (adds : ∀ sums, ∀ t < count, step sums t lane = sums lane + term t) :
    (List.range count).foldl step (fun _ => 0) lane = ∑ t ∈ Finset.range count, term t := by
  induction count with
  | zero => rfl
  | succ count ih =>
    rw [range_succ, foldl_append, foldl_cons, foldl_nil,
      adds _ count (Nat.lt_succ_self count), ih fun sums t lt => adds sums t (by omega),
      Finset.sum_range_succ]

/-- A sum, part by part. -/
theorem sum_parts (term : Nat → M) (parts size : Nat) :
    ∑ part ∈ Finset.range parts, ∑ i ∈ Finset.range size, term (part * size + i) =
      ∑ k ∈ Finset.range (parts * size), term k := by
  induction parts with
  | zero => simp
  | succ parts ih => rw [Finset.sum_range_succ, ih, Nat.succ_mul, Finset.sum_range_add]

/-- Terms behind an end that count nothing. -/
theorem sum_masked (term : Nat → M) {count reach : Nat} (covered : count ≤ reach) :
    ∑ i ∈ Finset.range reach, (if i < count then term i else 0) =
      ∑ i ∈ Finset.range count, term i := by
  rw [← Finset.sum_filter]
  congr 1
  ext i
  rw [Finset.mem_filter, Finset.mem_range, Finset.mem_range]
  omega

end FreeToken
