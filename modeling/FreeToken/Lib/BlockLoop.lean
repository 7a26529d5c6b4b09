/-
**A range in blocks of lanes.**
-/

import FreeToken.Lib.Tiling
import Mathlib.Algebra.BigOperators.Group.List.Basic

namespace FreeToken

open List

/-- `range(start, stop, block)` -/
def blockStarts (start stop block : Nat) : List Nat :=
  (List.range (cdiv (stop - start) block)).map fun t => start + t * block

/-- A block of a range, the last of which reaches past the end. -/
def blockLanes (block s0 : Nat) : List Nat := (List.range block).map (s0 + ·)

section Blocks

variable {start stop block : Nat} (pos : 0 < block)

theorem blocks_flatMap (count : Nat) :
    ((List.range count).map fun t => start + t * block).flatMap (blockLanes block) =
      (List.range (count * block)).map (start + ·) := by
  induction count with
  | zero => simp
  | succ count ih =>
    rw [range_succ, map_append, flatMap_append, ih, Nat.succ_mul, range_add, map_append, map_map]
    refine congrArg _ ?_
    simp [blockLanes, Function.comp_def, add_assoc]

include pos

/-- The lanes before the end are the range, in order. -/
theorem masked_lanes :
    ((blockStarts start stop block).flatMap (blockLanes block)).filter (· < stop) =
      List.range' start (stop - start) := by
  have reach := le_cdiv_mul (stop - start) pos
  obtain ⟨more, isMore⟩ := Nat.exists_eq_add_of_le reach
  unfold blockStarts
  rw [blocks_flatMap, isMore, range_add, map_append, filter_append]
  have all : ((range (stop - start)).map (start + ·)).filter (· < stop) =
      (range (stop - start)).map (start + ·) := by
    rw [filter_eq_self]
    intro off mem
    obtain ⟨i, lt, rfl⟩ := mem_map.mp mem
    have small := mem_range.mp lt
    exact decide_eq_true (by omega)
  have none : (((range more).map (stop - start + ·)).map (start + ·)).filter (· < stop) = [] := by
    rw [filter_eq_nil_iff]
    intro off mem
    obtain ⟨past, isPast, rfl⟩ := mem_map.mp mem
    obtain ⟨i, -, rfl⟩ := mem_map.mp isPast
    rw [decide_eq_true_iff]
    omega
  rw [all, none, append_nil, range'_eq_map_range]

/-- A sum over them. -/
theorem sum_blocks {M : Type} [AddCommMonoid M] (f : Nat → M) :
    ((blockStarts start stop block).map fun s0 =>
      ((blockLanes block s0).map fun off => if off < stop then f off else 0).sum).sum =
        ((List.range' start (stop - start)).map f).sum := by
  rw [← masked_lanes pos]
  induction blockStarts start stop block with
  | nil => rfl
  | cons s0 starts ih =>
    rw [map_cons, sum_cons, ih, flatMap_cons, filter_append, map_append, sum_append]
    congr 1
    induction blockLanes block s0 with
    | nil => rfl
    | cons off lanes ih =>
      rw [map_cons, sum_cons, ih, filter_cons]
      by_cases lt : off < stop
      · rw [if_pos lt, if_pos (decide_eq_true lt), map_cons, sum_cons]
      · rw [if_neg lt, if_neg (by simpa using lt), zero_add]

end Blocks

/-! ### Chunks -/

/-- A range cut into chunks of one size, one for each program. -/
def chunkRange (chunk n program : Nat) : List Nat :=
  List.range' (program * chunk) (min (program * chunk + chunk) n - program * chunk)

section Chunks

variable {chunk n programs : Nat} (covered : n ≤ programs * chunk)

theorem chunks_upTo (count : Nat) :
    (List.range count).flatMap (chunkRange chunk n) = List.range (min (count * chunk) n) := by
  induction count with
  | zero => simp
  | succ count ih =>
    rw [range_succ, flatMap_append, ih, flatMap_singleton, chunkRange, Nat.succ_mul]
    rcases Nat.le_total (count * chunk) n with lt | past
    · rw [Nat.min_eq_left lt, range_eq_range', range_eq_range']
      have append := @range'_append_1 0 (count * chunk)
        (min (count * chunk + chunk) n - count * chunk)
      rw [Nat.zero_add] at append
      rw [append]
      congr 1
      omega
    · rw [Nat.min_eq_right past, Nat.min_eq_right (past.trans (Nat.le_add_right _ _)),
        Nat.sub_eq_zero_of_le past]
      simp

include covered

theorem chunks_flatMap : (List.range programs).flatMap (chunkRange chunk n) = List.range n := by
  rw [chunks_upTo, min_eq_right covered]

/-- A sum over all programs, blocks and lanes. -/
theorem sum_chunks {M : Type} [AddCommMonoid M] {block : Nat} (pos : 0 < block) (f : Nat → M) :
    ((List.range programs).map fun program =>
      ((blockStarts (program * chunk) (min (program * chunk + chunk) n) block).map fun s0 =>
        ((blockLanes block s0).map fun off =>
          if off < min (program * chunk + chunk) n then f off else 0).sum).sum).sum =
      ((List.range n).map f).sum := by
  simp only [sum_blocks pos]
  rw [← chunks_flatMap covered]
  induction range programs with
  | nil => rfl
  | cons program later ih =>
    rw [map_cons, sum_cons, ih, flatMap_cons, map_append, sum_append]
    rfl

end Chunks

/-- One program does something. -/
theorem flatMap_only {α : Type} (programs k : Nat) (xs : List α) :
    ((List.range programs).flatMap fun program => if program = k then xs else []) =
      if k < programs then xs else [] := by
  induction programs with
  | zero => rfl
  | succ programs ih =>
    rw [range_succ, flatMap_append, ih, flatMap_singleton]
    rcases lt_trichotomy k programs with less | same | more
    · rw [if_pos less, if_neg (by omega), if_pos (by omega), append_nil]
    · rw [if_neg (by omega), if_pos same.symm, if_pos (by omega), nil_append]
    · rw [if_neg (by omega), if_neg (by omega), if_neg (by omega), append_nil]

end FreeToken
