/-
**Copies between the cells of a memory, and runs of consecutive numbers.**
-/

import Mathlib.Data.List.Nodup
import Mathlib.Order.Nat

set_option linter.unusedSectionVars false

namespace FreeToken

open List Function

variable {Cell Value : Type}

inductive Source (Cell Value : Type) where
  | cell (cell : Cell)
  | value (value : Value)

/-- A source is a cell or a value from elsewhere. -/
structure Copy (Cell Value : Type) where
  dst : Cell
  source : Source Cell Value

def Source.read (memory : Cell → Value) : Source Cell Value → Value
  | .cell place => memory place
  | .value held => held

section Run

variable [DecidableEq Cell] {memory : Cell → Value} {copies order : List (Copy Cell Value)}

def runCopies (memory : Cell → Value) (copies : List (Copy Cell Value)) : Cell → Value :=
  copies.foldl (fun memory copy => Function.update memory copy.dst (copy.source.read memory)) memory

/-- The destinations are distinct and no source is one of them. Then every destination gets what its
source held at first (`runCopies_of_mem`), in any order (`runCopies_congr`). -/
structure Apart (copies : List (Copy Cell Value)) : Prop where
  distinct : (copies.map Copy.dst).Nodup
  unread : ∀ copy ∈ copies, ∀ cell, copy.source = .cell cell → cell ∉ copies.map Copy.dst

theorem Apart.perm (apart : Apart copies) (perm : order.Perm copies) : Apart order where
  distinct := (perm.map Copy.dst).nodup_iff.mpr apart.distinct
  unread := fun copy member cell reads written =>
    apart.unread copy (perm.mem_iff.mp member) cell reads ((perm.map Copy.dst).mem_iff.mp written)

theorem Apart.tail {copy : Copy Cell Value} (apart : Apart (copy :: copies)) : Apart copies where
  distinct := (nodup_cons.mp apart.distinct).2
  unread := fun other member cell reads written =>
    apart.unread other (mem_cons_of_mem _ member) cell reads (mem_cons_of_mem _ written)

theorem runCopies_of_notMem {cell : Cell} (other : cell ∉ copies.map Copy.dst) :
    runCopies memory copies cell = memory cell := by
  induction copies generalizing memory with
  | nil => rfl
  | cons copy copies ih =>
    rw [map_cons, mem_cons, not_or] at other
    have rest := @ih (update memory copy.dst (copy.source.read memory)) other.2
    rw [update_of_ne other.1] at rest
    exact rest

theorem runCopies_of_value {cell : Cell} {value : Value} (written : cell ∈ copies.map Copy.dst)
    (same : ∀ copy ∈ copies, copy.dst = cell → copy.source = .value value) :
    runCopies memory copies cell = value := by
  induction copies generalizing memory with
  | nil => cases written
  | cons copy copies ih =>
    by_cases later : cell ∈ copies.map Copy.dst
    · exact ih later fun other member => same other (mem_cons_of_mem _ member)
    · have here : copy.dst = cell := ((mem_cons.mp written).resolve_right later).symm
      have kept := @runCopies_of_notMem _ _ _
        (update memory copy.dst (copy.source.read memory)) _ _ later
      refine Eq.trans kept ?_
      rw [here, update_self, same copy mem_cons_self here]
      rfl

theorem runCopies_of_mem (apart : Apart copies) {copy : Copy Cell Value} (member : copy ∈ copies) :
    runCopies memory copies copy.dst = copy.source.read memory := by
  induction copies generalizing memory with
  | nil => cases member
  | cons first copies ih =>
    have firstFresh := (nodup_cons.mp apart.distinct).1
    rcases mem_cons.mp member with rfl | later
    · have kept := @runCopies_of_notMem _ _ _
        (update memory copy.dst (copy.source.read memory)) _ _ firstFresh
      rw [update_self] at kept
      exact kept
    · have rest := @ih (update memory first.dst (first.source.read memory))
        apart.tail later
      refine rest.trans ?_
      cases source : copy.source with
      | value value => rfl
      | cell cell =>
        have unread := apart.unread copy member cell source
        rw [map_cons, mem_cons, not_or] at unread
        exact update_of_ne unread.1 _ _

theorem runCopies_congr (apart : Apart copies) (orderApart : Apart order)
    (written : ∀ copy ∈ order, ∃ other ∈ copies, other.dst = copy.dst ∧
      other.source.read memory = copy.source.read memory)
    (sameCells : ∀ cell, cell ∈ copies.map Copy.dst → cell ∈ order.map Copy.dst) :
    runCopies memory order = runCopies memory copies := by
  funext cell
  by_cases here : cell ∈ order.map Copy.dst
  · obtain ⟨copy, member, rfl⟩ := mem_map.mp here
    obtain ⟨other, otherMem, same, sameValue⟩ := written copy member
    rw [runCopies_of_mem orderApart member, ← same, runCopies_of_mem apart otherMem, sameValue]
  · rw [runCopies_of_notMem here, runCopies_of_notMem fun there => here (sameCells cell there)]

end Run

/-! ### Runs of consecutive numbers -/

def segments (cuts : List Nat) (stop : Nat) : List (Nat × Nat) := cuts.zip (cuts.tail ++ [stop])

theorem segments_flatten {Elem : Type} (elems : List Elem) {first : Nat} {cuts : List Nat}
    (ordered : (first :: cuts).Pairwise (· < ·))
    (bound : ∀ cut ∈ first :: cuts, cut ≤ elems.length) :
    ((segments (first :: cuts) elems.length).flatMap fun segment =>
      (elems.drop segment.1).take (segment.2 - segment.1)) = elems.drop first := by
  induction cuts generalizing first with
  | nil =>
    show (elems.drop first).take (elems.length - first) ++ [] = _
    rw [append_nil]
    refine take_of_length_le ?_
    exact length_drop.le
  | cons second cuts ih =>
    have step : first < second := (pairwise_cons.mp ordered).1 second mem_cons_self
    have rest := ih (pairwise_cons.mp ordered).2 fun cut member =>
      bound cut (mem_cons_of_mem _ member)
    show (elems.drop first).take (second - first) ++ ((segments (second :: cuts)
      elems.length).flatMap fun segment => (elems.drop segment.1).take (segment.2 - segment.1)) = _
    rw [rest]
    have apartFirst : elems.drop second = (elems.drop first).drop (second - first) := by
      rw [drop_drop, Nat.add_sub_cancel' step.le]
    rw [apartFirst, take_append_drop]

theorem segments_between {first stop : Nat} {cuts : List Nat}
    (ordered : (first :: cuts).Pairwise (· < ·)) (bound : ∀ cut ∈ first :: cuts, cut < stop)
    {segment : Nat × Nat} (member : segment ∈ segments (first :: cuts) stop) :
    first ≤ segment.1 ∧ segment.1 < segment.2 ∧ segment.2 ≤ stop ∧
      ∀ position, segment.1 < position → position < segment.2 → position ∉ first :: cuts := by
  induction cuts generalizing first with
  | nil =>
    have only : segment = (first, stop) := mem_singleton.mp member
    subst only
    refine ⟨le_rfl, bound first mem_cons_self, le_rfl, fun position after _ lt => ?_⟩
    rw [mem_singleton] at lt
    omega
  | cons second cuts ih =>
    have less := (pairwise_cons.mp ordered).1
    have step : first < second := less second mem_cons_self
    rcases mem_cons.mp member with rfl | later
    · refine ⟨le_rfl, step, (bound second (mem_cons_of_mem _ mem_cons_self)).le, ?_⟩
      intro position after pre lt
      rcases mem_cons.mp lt with rfl | lt
      · omega
      · rcases mem_cons.mp lt with rfl | lt
        · omega
        · have above := (pairwise_cons.mp (pairwise_cons.mp ordered).2).1 _ lt
          omega
    · obtain ⟨low, inner, high, clear⟩ := ih (pairwise_cons.mp ordered).2
        (fun cut lt => bound cut (mem_cons_of_mem _ lt)) later
      refine ⟨by omega, inner, high, fun position after pre lt => ?_⟩
      rcases mem_cons.mp lt with rfl | lt
      · omega
      · exact clear position after pre lt

def runStarts (elems : List Nat) : List Nat :=
  0 :: ((List.range (elems.length - 1)).filter fun position =>
    elems.getD (position + 1) 0 - elems.getD position 0 ≠ 1).map (· + 1)

def runs (elems : List Nat) : List (Nat × Nat) :=
  (segments (runStarts elems) elems.length).map fun segment =>
    (elems.getD segment.1 0, segment.2 - segment.1)

theorem runStarts_ordered (elems : List Nat) : (runStarts elems).Pairwise (· < ·) := by
  refine pairwise_cons.mpr ⟨fun start member => ?_, ?_⟩
  · obtain ⟨position, _, rfl⟩ := mem_map.mp member
    exact Nat.succ_pos position
  · exact List.Pairwise.map _ (fun _ _ less => Nat.succ_lt_succ less)
      (pairwise_lt_range.filter _)

theorem runStarts_bound {elems : List Nat} (some : elems ≠ []) :
    ∀ start ∈ runStarts elems, start < elems.length := by
  have pos := length_pos_iff.mpr some
  intro start member
  rcases mem_cons.mp member with rfl | member
  · exact pos
  · obtain ⟨position, lt, rfl⟩ := mem_map.mp member
    have bound := mem_range.mp (mem_filter.mp lt).1
    omega

theorem consecutive {elems : List Nat} {start stop : Nat} (less : start < stop)
    (bound : stop ≤ elems.length)
    (counts : ∀ position, start ≤ position → position + 1 < stop →
      elems.getD (position + 1) 0 = elems.getD position 0 + 1) :
    (elems.drop start).take (stop - start) = List.range' (elems.getD start 0) (stop - start) := by
  have nth : ∀ offset, start + offset < stop →
      elems.getD (start + offset) 0 = elems.getD start 0 + offset := by
    intro offset
    induction offset with
    | zero => exact fun _ => rfl
    | succ offset ih =>
      intro lt
      have step := counts (start + offset) (by omega) (by omega)
      rw [show start + (offset + 1) = start + offset + 1 from rfl, step, ih (by omega)]
      omega
  refine ext_getElem ?_ fun offset left right => ?_
  · rw [length_take, length_drop, length_range']
    omega
  · rw [length_range'] at right
    have value := nth offset (by omega)
    rw [getD_eq_getElem?_getD, getElem?_eq_getElem (by omega), Option.getD_some] at value
    rw [getElem_take, getElem_drop, value, getElem_range']
    omega

theorem runs_flatten {elems : List Nat} (some : elems ≠ []) (ordered : elems.Pairwise (· < ·)) :
    ((runs elems).flatMap fun run => List.range' run.1 run.2) = elems := by
  have cuts := runStarts_ordered elems
  have bound := runStarts_bound some
  have whole := segments_flatten elems cuts fun cut member => (bound cut member).le
  rw [drop_zero] at whole
  unfold runs
  rw [flatMap_map]
  refine Eq.trans (flatMap_congr fun segment member => ?_) whole
  obtain ⟨_, less, high, clear⟩ := segments_between cuts bound member
  refine (consecutive less high fun position after pre => ?_).symm
  have notCut := clear (position + 1) (by omega) pre
  have grows : elems.getD position 0 < elems.getD (position + 1) 0 := by
    have increases := pairwise_iff_getElem.mp ordered position (position + 1) (by omega)
      (by omega) (Nat.lt_succ_self _)
    rw [getD_eq_getElem?_getD, getElem?_eq_getElem (by omega),
      getD_eq_getElem?_getD, getElem?_eq_getElem (by omega)]
    exact increases
  by_contra jump
  refine notCut (mem_cons_of_mem _ (mem_map.mpr ⟨position, ?_, rfl⟩))
  refine mem_filter.mpr ⟨mem_range.mpr (by omega), decide_eq_true ?_⟩
  omega

end FreeToken
