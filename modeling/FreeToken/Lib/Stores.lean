/-
**What the programs of a launch leave in a buffer.**
-/

import FreeToken.Lib.Tiling
import Mathlib.Algebra.Group.Nat.Defs
import Mathlib.Algebra.Ring.Int.Defs
import Mathlib.Data.Nat.Log

namespace FreeToken

open List

/-- How many lanes there are for some cells. -/
def nextPowerOf2 (n : Nat) : Nat := 2 ^ Nat.clog 2 n

theorem le_nextPowerOf2 (n : Nat) : n ≤ nextPowerOf2 n := Nat.le_pow_clog (by decide) n

/-- An integer of 32 bits: what of a result is kept. -/
def wrap32 (i : Int) : Int := i.bmod (2 ^ 32)

theorem wrap32_eq {i : Int} (low : -2 ^ 31 ≤ i) (high : i < 2 ^ 31) : wrap32 i = i := by
  unfold wrap32
  rw [Int.bmod_eq_of_le] <;> omega

theorem wrap32_natCast {n : Nat} (small : n < 2 ^ 31) : wrap32 n = n :=
  wrap32_eq (by omega) (by omega)

/-- The stores of some programs, one after another. -/
def storeAll {π κ α : Type} (programs : List π) (writes : π → κ → Option α) (buffer : κ → α) :
    κ → α :=
  programs.foldl (fun buffer program cell => (writes program cell).getD (buffer cell)) buffer

/-- A cell that all of them store the same in, in any order. -/
theorem storeAll_eq {π κ α : Type} {programs : List π} {writes : π → κ → Option α} {buffer : κ → α}
    {cell : κ} {value : α} (stored : ∃ program ∈ programs, writes program cell = some value)
    (same : ∀ program ∈ programs, ∀ other, writes program cell = some other → other = value) :
    storeAll programs writes buffer cell = value := by
  unfold storeAll
  -- once written, the cell is written with the same value only
  have kept : ∀ (programs : List π) (buffer : κ → α),
      (∀ program ∈ programs, ∀ other, writes program cell = some other → other = value) →
      buffer cell = value →
      programs.foldl (fun buffer program cell => (writes program cell).getD (buffer cell)) buffer
        cell = value := by
    intro programs
    induction programs with
    | nil => exact fun buffer _ holds => holds
    | cons program programs ih =>
      intro buffer same holds
      refine ih _ (fun other mem => same other (mem_cons_of_mem _ mem)) ?_
      show (writes program cell).getD (buffer cell) = value
      cases written : writes program cell with
      | none => exact holds
      | some other => exact same program mem_cons_self other written
  induction programs generalizing buffer with
  | nil =>
    obtain ⟨program, mem, -⟩ := stored
    exact absurd mem not_mem_nil
  | cons program programs ih =>
    rw [foldl_cons]
    have later : ∀ other ∈ programs, ∀ value', writes other cell = some value' → value' = value :=
      fun other mem => same other (mem_cons_of_mem _ mem)
    obtain ⟨writer, mem, written⟩ := stored
    rcases mem_cons.mp mem with rfl | mem
    · refine kept programs _ later ?_
      rw [written]
      rfl
    · exact ih ⟨writer, mem, written⟩ later

/-- A cell that none of them stores in. -/
theorem storeAll_none {π κ α : Type} {programs : List π} {writes : π → κ → Option α}
    {buffer : κ → α} {cell : κ} (unwritten : ∀ program ∈ programs, writes program cell = none) :
    storeAll programs writes buffer cell = buffer cell := by
  unfold storeAll
  induction programs generalizing buffer with
  | nil => rfl
  | cons program programs ih =>
    rw [foldl_cons, ih fun other mem => unwritten other (mem_cons_of_mem _ mem)]
    rw [unwritten program mem_cons_self]
    rfl

/-- Tiles of cells that follow one another, as far as a bound. -/
def fillTiles {α : Type} (programs tile bound : Nat) (value : Nat → α) (buffer : Nat → α) :
    Nat → α :=
  storeAll (List.range programs) (fun pid cell =>
    if (pid * tile ≤ cell ∧ cell < pid * tile + tile) ∧ cell < bound then some (value cell) else none)
    buffer

section Tiles

variable {α : Type} {programs tile bound cell : Nat} {value : Nat → α} {buffer : Nat → α}

theorem fillTiles_inside (covered : bound ≤ programs * tile) (lt : cell < bound) :
    fillTiles programs tile bound value buffer cell = value cell := by
  have pos : 0 < tile := by
    rcases Nat.eq_zero_or_pos tile with none | some
    · rw [none, Nat.mul_zero] at covered
      omega
    · exact some
  have here := Nat.div_add_mod cell tile
  have rest := Nat.mod_lt cell pos
  rw [Nat.mul_comm] at here
  refine storeAll_eq ⟨cell / tile, mem_range.mpr ?_, if_pos ⟨⟨by omega, by omega⟩, lt⟩⟩ ?_
  · exact Nat.div_lt_of_lt_mul (by rw [Nat.mul_comm]; omega)
  · intro pid _ other stored
    split at stored
    · exact (Option.some.inj stored).symm
    · cases stored

theorem fillTiles_outside (outside : bound ≤ cell) :
    fillTiles programs tile bound value buffer cell = buffer cell :=
  storeAll_none fun _ _ => if_neg fun lt => absurd lt.2 (not_lt.mpr outside)

end Tiles

end FreeToken
