/-
**Elements of tensors.**
-/

import FreeToken.Lib.Traverse
import Mathlib.Data.List.GetD
import Mathlib.Order.Nat

namespace FreeToken

open List

/-- An element of a tensor. A negative index counts from the end; `none` is an error. -/
def tensorIndex {α : Type} (values : List α) (i : Int) : Option α :=
  if i < 0 then
    if 0 ≤ i + values.length then values[(i + values.length).toNat]? else none
  else values[i.toNat]?

section Index

variable {α : Type} {values : List α}

theorem tensorIndex_natCast (i : Nat) : tensorIndex values (i : Int) = values[i]? := by
  unfold tensorIndex
  rw [if_neg (by omega), Int.toNat_natCast]

end Index

/-- `values.gather(-1, indices.clamp_min(0))`, and `-1` where the index is a mask. -/
def gatherMasked (values indices : List Int) : Option (List Int) :=
  indices.mapM fun index => do
    let value ← tensorIndex values (max index 0)
    pure (if index < 0 then -1 else value)

theorem gatherMasked_eq {values indices : List Int} (nonempty : values ≠ [])
    (lt : ∀ index ∈ indices, index < values.length) :
    gatherMasked values indices = some (indices.map fun index =>
      if index < 0 then -1 else values.getD index.toNat (-1)) := by
  refine mapM_some fun index mem => ?_
  have pos := length_pos_iff.mpr nonempty
  have below := lt index mem
  have cast : max index 0 = (index.toNat : Int) := by omega
  have within : index.toNat < values.length := by omega
  rw [cast, tensorIndex_natCast, getElem?_eq_getElem within, getD_eq_getElem _ _ within]
  rfl

/-- A row that counts up to a bound and then holds a mark. -/
theorem ramp_eq {α : Type} {width bound : Nat} (within : bound ≤ width) (value : Nat → α)
    (mark : α) :
    (List.range width).map (fun i => if i < bound then value i else mark) =
      (List.range bound).map value ++ List.replicate (width - bound) mark := by
  obtain ⟨more, rfl⟩ := Nat.exists_eq_add_of_le within
  rw [range_add, map_append, Nat.add_sub_cancel_left, map_map]
  congr 1
  · refine map_congr_left fun i mem => ?_
    rw [if_pos (mem_range.mp mem)]
  · refine eq_replicate_iff.mpr ⟨by simp, fun other mem => ?_⟩
    obtain ⟨i, -, rfl⟩ := mem_map.mp mem
    show (if bound + i < bound then value (bound + i) else mark) = mark
    rw [if_neg (by omega)]

/-- A maximum over a list. -/
theorem le_foldl_max {values : List Nat} {value : Nat} (mem : value ∈ values) :
    ∀ start, value ≤ values.foldl max start := by
  have grows : ∀ (values : List Nat) (start : Nat), start ≤ values.foldl max start := by
    intro values
    induction values with
    | nil => exact fun start => le_rfl
    | cons first values ih => exact fun start => (le_max_left start first).trans (ih _)
  induction values with
  | nil => exact absurd mem not_mem_nil
  | cons first values ih =>
    intro start
    rcases mem_cons.mp mem with rfl | later
    · exact (le_max_right start value).trans (grows values _)
    · exact ih later _

end FreeToken
