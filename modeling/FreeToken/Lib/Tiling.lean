/-
**Tilings and slice assignments.**
-/

import FreeToken.Lib.Traverse
import Mathlib.Data.List.TakeDrop
import Mathlib.Order.Nat

namespace FreeToken

open List

/-- Ranges that follow one another from a number to another. -/
inductive Tiles : Nat → List (Nat × Nat) → Nat → Prop
  | nil (start : Nat) : Tiles start [] start
  | cons {start next stop : Nat} {ranges : List (Nat × Nat)} (forward : start ≤ next)
      (later : Tiles next ranges stop) : Tiles start ((start, next) :: ranges) stop

variable {range : Nat × Nat}

namespace Tiles

variable {first last : Nat} {ranges : List (Nat × Nat)}

theorem forward (tiles : Tiles first ranges last) : first ≤ last := by
  induction tiles with
  | nil => exact le_rfl
  | cons here _ ih => exact here.trans ih

theorem uncons (tiles : Tiles first (range :: ranges) last) :
    range.1 = first ∧ first ≤ range.2 ∧ Tiles range.2 ranges last := by
  cases tiles with
  | cons here later => exact ⟨rfl, here, later⟩

theorem snoc (tiles : Tiles first ranges last) {next : Nat} (forward : last ≤ next) :
    Tiles first (ranges ++ [(last, next)]) next := by
  induction tiles with
  | nil => exact .cons forward (.nil next)
  | cons here _ ih => exact .cons here (ih forward)

/-- What a pass over them keeps. -/
theorem fold {σ : Type} {step : σ → Nat × Nat → σ} {P : Nat → σ → Prop}
    (tiles : Tiles first ranges last)
    (keeps : ∀ start next s, start ≤ next → next ≤ last → P start s → P next (step s (start, next)))
    {s : σ} (start : P first s) : P last (ranges.foldl step s) := by
  induction tiles generalizing s with
  | nil => exact start
  | cons here later ih => exact ih keeps (keeps _ _ s here later.forward start)

theorem within (tiles : Tiles first ranges last) (mem : range ∈ ranges) :
    first ≤ range.1 ∧ range.1 ≤ range.2 ∧ range.2 ≤ last := by
  induction tiles with
  | nil => exact absurd mem not_mem_nil
  | cons here later ih =>
    rcases mem_cons.mp mem with rfl | mem
    · exact ⟨le_rfl, here, later.forward⟩
    · obtain ⟨lower, middle, upper⟩ := ih mem
      exact ⟨here.trans lower, middle, upper⟩

/-- Every number between is in one of them. -/
theorem cover (tiles : Tiles first ranges last) {p : Nat} (lower : first ≤ p) (upper : p < last) :
    ∃ range ∈ ranges, range.1 ≤ p ∧ p < range.2 := by
  induction tiles with
  | nil => omega
  | @cons start next stop ranges here later ih =>
    by_cases lt : p < next
    · exact ⟨_, mem_cons_self, lower, lt⟩
    · obtain ⟨range, mem, covers⟩ := ih (by omega) upper
      exact ⟨range, mem_cons_of_mem _ mem, covers⟩

theorem flatMap_range {β : Type} (tiles : Tiles first ranges last) (value : Nat → β) :
    ranges.flatMap (fun range => (List.range (range.2 - range.1)).map fun i => value (range.1 + i)) =
      (List.range (last - first)).map fun i => value (first + i) := by
  induction tiles with
  | nil start => rw [Nat.sub_self]; rfl
  | @cons start next stop ranges here later ih =>
    have split : stop - start = (next - start) + (stop - next) := by
      have := later.forward
      omega
    rw [flatMap_cons, ih, split, range_add, map_append, map_map]
    refine congrArg (_ ++ ·) (map_congr_left fun i _ => ?_)
    show value (next + i) = value (start + (next - start + i))
    rw [← Nat.add_assoc, Nat.add_sub_cancel' here]

end Tiles

/-- `range(0, size, step)`, each with its end. -/
def strides (size step : Nat) : List (Nat × Nat) :=
  (List.range ((size + step - 1) / step)).map fun i => (i * step, min (i * step + step) size)

theorem strides_tiles (size : Nat) {step : Nat} (pos : 1 ≤ step) :
    Tiles 0 (strides size step) size := by
  have upTo : ∀ k ≤ (size + step - 1) / step,
      Tiles 0 ((range k).map fun i => (i * step, min (i * step + step) size))
        (min (k * step) size) := by
    intro k
    induction k with
    | zero =>
      intro _
      rw [Nat.zero_mul, Nat.zero_min]
      exact .nil 0
    | succ k ih =>
      intro bound
      have lt := (Nat.le_div_iff_mul_le (by omega)).mp bound
      rw [Nat.succ_mul] at lt
      have start : min (k * step) size = k * step := by omega
      have tiles := ih (by omega)
      rw [start] at tiles
      rw [range_succ, map_append, Nat.succ_mul]
      exact tiles.snoc (by omega)
  have all := upTo _ le_rfl
  have reach := Nat.lt_mul_div_succ (size + step - 1) (show 0 < step by omega)
  rw [Nat.mul_succ, Nat.mul_comm] at reach
  rwa [Nat.min_eq_right (by omega)] at all

/-- To go through all ranges is to go through the numbers between. -/
theorem strides_mapM {α β : Type} {size step : Nat} (pos : 1 ≤ step) {item : Nat → α}
    {run : α → Option β} {res : Nat → β} (each : ∀ i < size, run (item i) = some (res i)) :
    ∃ chunks, ((strides size step).mapM fun span =>
        ((List.range (span.2 - span.1)).map fun i => item (span.1 + i)).mapM run) = some chunks ∧
      chunks.flatten = (List.range size).map res := by
  have tiles := strides_tiles size pos
  refine ⟨(strides size step).map fun span =>
    (range (span.2 - span.1)).map fun i => res (span.1 + i), mapM_some ?_, ?_⟩
  · intro span mem
    obtain ⟨-, -, upper⟩ := tiles.within mem
    rw [mapM_map]
    refine mapM_some fun i inSpan => ?_
    rw [mem_range] at inSpan
    exact each _ (by omega)
  · rw [← flatMap_def, tiles.flatMap_range]
    simp

/-! ### The number of steps -/

/-- How many steps a range takes. -/
def cdiv (count size : Nat) : Nat := (count + size - 1) / size

theorem div_lt_cdiv {count size n : Nat} (pos : 0 < size) (lt : n < count) :
    n / size < cdiv count size := by
  unfold cdiv
  rw [Nat.div_lt_iff_lt_mul pos]
  have whole := Nat.lt_mul_div_succ (count + size - 1) pos
  rw [Nat.mul_comm, Nat.add_mul, Nat.one_mul] at whole
  omega

theorem cdiv_mul {count size : Nat} (pos : 0 < size) : cdiv (size * count) size = count := by
  unfold cdiv
  rw [Nat.add_sub_assoc pos, Nat.mul_add_div pos, Nat.div_eq_of_lt (by omega), Nat.add_zero]

theorem le_cdiv_mul (n : Nat) {step : Nat} (pos : 0 < step) : n ≤ cdiv n step * step := by
  have reach := Nat.lt_mul_div_succ (n + step - 1) pos
  rw [Nat.mul_succ, Nat.mul_comm] at reach
  unfold cdiv
  omega

theorem lt_cdiv {i n step : Nat} (lt : i < cdiv n step) : i * step < n := by
  rcases Nat.eq_zero_or_pos step with rfl | pos
  · rw [cdiv, Nat.div_zero] at lt
    omega
  · have := (Nat.le_div_iff_mul_le pos).mp (show i + 1 ≤ (n + step - 1) / step from lt)
    rw [Nat.succ_mul] at this
    omega

/-! ### Slices -/

section Slices

variable {α : Type}

/-- `buffer[start : start + len(values)] = values`. -/
def setSlice (buffer : List α) (start : Nat) (values : List α) : List α :=
  buffer.take start ++ values ++ buffer.drop (start + values.length)

theorem setSlice_replicate (left values : List α) (m : Nat) (z : α) :
    setSlice (left ++ List.replicate m z) left.length values =
      left ++ values ++ List.replicate (m - values.length) z := by
  unfold setSlice
  rw [take_left, ← drop_drop, drop_left, drop_replicate]

theorem setSlice_length {buffer values : List α} {start : Nat}
    (fits : start + values.length ≤ buffer.length) :
    (setSlice buffer start values).length = buffer.length := by
  unfold setSlice
  rw [length_append, length_append, length_take, length_drop]
  omega

theorem setSlice_get {buffer values : List α} {start : Nat}
    (fits : start + values.length ≤ buffer.length) (p : Nat) :
    (setSlice buffer start values)[p]? =
      if start ≤ p ∧ p < start + values.length then values[p - start]? else buffer[p]? := by
  have left : (buffer.take start).length = start := by
    rw [length_take]
    omega
  unfold setSlice
  rcases lt_or_ge p start with pre | reached
  · rw [if_neg (by omega), append_assoc, getElem?_append_left (by omega), getElem?_take, if_pos pre]
  · rcases lt_or_ge p (start + values.length) with lt | beyond
    · rw [if_pos ⟨reached, lt⟩, append_assoc, getElem?_append_right (by omega), left,
        getElem?_append_left (by omega)]
    · rw [if_neg (by omega), getElem?_append_right (by rw [length_append]; omega),
        length_append, left, getElem?_drop]
      congr 1
      omega

def copySlice (source buffer : List α) (range : Nat × Nat) : List α :=
  setSlice buffer range.1 ((source.take range.2).drop range.1)

variable {source buffer : List α} {ranges : List (Nat × Nat)}

theorem copySlice_get (ordered : range.1 ≤ range.2)
    (inSource : range.2 ≤ source.length) (inBuffer : range.2 ≤ buffer.length) (p : Nat) :
    (copySlice source buffer range)[p]? =
      if range.1 ≤ p ∧ p < range.2 then source[p]? else buffer[p]? := by
  have length : ((source.take range.2).drop range.1).length = range.2 - range.1 := by
    rw [length_drop, length_take]
    omega
  unfold copySlice
  rw [setSlice_get (by omega), length]
  by_cases lt : range.1 ≤ p ∧ p < range.2
  · have same : range.1 + (p - range.1) = p := by omega
    rw [if_pos lt, if_pos (by omega), getElem?_drop, same, getElem?_take, if_pos lt.2]
  · rw [if_neg lt, if_neg (by omega)]

theorem copySlice_length (ordered : range.1 ≤ range.2)
    (inSource : range.2 ≤ source.length) (inBuffer : range.2 ≤ buffer.length) :
    (copySlice source buffer range).length = buffer.length := by
  unfold copySlice
  rw [setSlice_length]
  rw [length_drop, length_take]
  omega

/-- Slices of one source, written in any order, leave the source wherever one of them has been. -/
theorem copySlices_get
    (lt : ∀ range ∈ ranges, range.1 ≤ range.2 ∧ range.2 ≤ source.length ∧ range.2 ≤ buffer.length) :
    (ranges.foldl (copySlice source) buffer).length = buffer.length ∧
      ∀ p, (ranges.foldl (copySlice source) buffer)[p]? =
        if ∃ range ∈ ranges, range.1 ≤ p ∧ p < range.2 then source[p]? else buffer[p]? := by
  induction ranges generalizing buffer with
  | nil => exact ⟨rfl, fun p => (if_neg (by simp)).symm⟩
  | cons range ranges ih =>
    obtain ⟨ordered, inSource, inBuffer⟩ := lt range mem_cons_self
    have length := copySlice_length ordered inSource inBuffer
    obtain ⟨total, get⟩ := @ih (copySlice source buffer range) (by
      intro other mem
      rw [length]
      exact lt other (mem_cons_of_mem _ mem))
    rw [foldl_cons]
    refine ⟨total.trans length, fun p => ?_⟩
    rw [get, copySlice_get ordered inSource inBuffer]
    by_cases later : ∃ other ∈ ranges, other.1 ≤ p ∧ p < other.2
    · obtain ⟨other, mem, covers⟩ := later
      rw [if_pos ⟨other, mem, covers⟩, if_pos ⟨other, mem_cons_of_mem _ mem, covers⟩]
    · rw [if_neg later]
      by_cases here : range.1 ≤ p ∧ p < range.2
      · rw [if_pos here, if_pos ⟨range, mem_cons_self, here⟩]
      · rw [if_neg here, if_neg]
        rintro ⟨other, mem, covers⟩
        rcases mem_cons.mp mem with rfl | mem
        · exact here covers
        · exact later ⟨other, mem, covers⟩

theorem copySlices_cover (lt : ∀ range ∈ ranges, range.1 ≤ range.2 ∧ range.2 ≤ source.length ∧
      range.2 ≤ buffer.length) {n : Nat}
    (covered : ∀ p < n, ∃ range ∈ ranges, range.1 ≤ p ∧ p < range.2) :
    (ranges.foldl (copySlice source) buffer).take n = source.take n := by
  obtain ⟨length, get⟩ := copySlices_get lt
  apply ext_getElem?
  intro p
  rw [getElem?_take, getElem?_take]
  by_cases below : p < n
  · rw [if_pos below, if_pos below, get, if_pos (covered p below)]
  · rw [if_neg below, if_neg below]

end Slices

end FreeToken
