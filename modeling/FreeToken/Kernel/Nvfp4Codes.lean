/-
**The codes of an NVFP4 word.**
-/

import FreeToken.Kernel.Nvfp4
import Mathlib.Tactic.IntervalCases
import Mathlib.Tactic.Ring

namespace FreeToken.Nvfp4

open scoped BigOperators

def e2m1Half (code : BitVec 4) : BitVec 16 :=
  ((code &&& 7#4).setWidth 16 <<< 9) ||| ((code &&& 8#4).setWidth 16 <<< 12)

theorem half_e2m1 (code : BitVec 4) : half (e2m1Half code) = e2m1 code / 2 ^ 14 := by
  have all : ∀ c : Fin 16, half (e2m1Half (BitVec.ofFin c)) = e2m1 (BitVec.ofFin c) / 2 ^ 14 := by
    decide +kernel
  exact all code.toFin

section Bits

variable (v : BitVec 32)

theorem low_half :
    ((((v <<< 9) &&& 0x0E000E00#32) ||| ((v &&& 0x00080008#32) <<< 12)) &&& 0xFFFF#32).setWidth 16 =
      e2m1Half (v.extractLsb' 0 4) := by
  unfold e2m1Half
  ext i lt
  interval_cases i <;> simp

theorem high_half :
    ((((v <<< 9) &&& 0x0E000E00#32) ||| ((v &&& 0x00080008#32) <<< 12)).sshiftRight 16).setWidth 16 =
      e2m1Half (v.extractLsb' 16 4) := by
  unfold e2m1Half
  ext i lt
  interval_cases i <;> simp [BitVec.getElem_sshiftRight]

theorem single_half :
    ((((v &&& 0xF#32) <<< 9) &&& 0x0E00#32) ||| (((v &&& 0xF#32) &&& 0x8#32) <<< 12)).setWidth 16 =
      e2m1Half (v.extractLsb' 0 4) := by
  unfold e2m1Half
  ext i lt
  interval_cases i <;> simp

theorem pair_eq : pair v =
    (e2m1 (v.extractLsb' 0 4) / 2 ^ 14, e2m1 (v.extractLsb' 16 4) / 2 ^ 14) := by
  unfold pair
  dsimp only
  rw [low_half, high_half, half_e2m1, half_e2m1]

theorem extract_shift {shift start : Nat} (lt : start + 4 + shift ≤ 32) :
    (v.sshiftRight shift).extractLsb' start 4 = v.extractLsb' (shift + start) 4 := by
  ext i small
  rw [BitVec.getElem_extractLsb', BitVec.getElem_extractLsb', BitVec.getLsbD_sshiftRight,
    decide_eq_false (by omega), Bool.not_false, Bool.true_and, if_pos (by omega), add_assoc]

end Bits

theorem dequantValue_eq (op : Operands) (word : BitVec 32) (code : BitVec 8) (g : ℚ) {i : Nat}
    (lt : i < 8) : dequantValue op word code g i =
      e2m1 (word.extractLsb' (i * 4) 4) * scaleF32 op.native code * g := by
  unfold dequantValue
  dsimp only
  rw [single_half, half_e2m1, extract_shift word (by omega), add_zero]
  ring

section Activations

variable (aVec : Nat → ℚ) (w : Nat)

theorem split8_a0 : (split8 aVec).a0 w = aVec (8 * w + 0) := congrArg aVec (by omega)
theorem split8_a1 : (split8 aVec).a1 w = aVec (8 * w + 1) := congrArg aVec (by omega)
theorem split8_a2 : (split8 aVec).a2 w = aVec (8 * w + 2) := congrArg aVec (by omega)
theorem split8_a3 : (split8 aVec).a3 w = aVec (8 * w + 3) := congrArg aVec (by omega)
theorem split8_a4 : (split8 aVec).a4 w = aVec (8 * w + 4) := congrArg aVec (by omega)
theorem split8_a5 : (split8 aVec).a5 w = aVec (8 * w + 5) := congrArg aVec (by omega)
theorem split8_a6 : (split8 aVec).a6 w = aVec (8 * w + 6) := congrArg aVec (by omega)
theorem split8_a7 : (split8 aVec).a7 w = aVec (8 * w + 7) := congrArg aVec (by omega)

def wordSum (word : BitVec 32) : ℚ :=
  ∑ j ∈ Finset.range 8, aVec (8 * w + j) * e2m1 (word.extractLsb' (j * 4) 4)

/-- The products of a word, each code once. -/
theorem accWord_eq (word : BitVec 32) :
    accWord (split8 aVec) w word = wordSum aVec w word / 2 ^ 14 := by
  unfold accWord wordSum
  rw [pair_eq, pair_eq, pair_eq, pair_eq, extract_shift word (by decide),
    extract_shift word (by decide), extract_shift word (by decide), extract_shift word (by decide),
    extract_shift word (by decide), extract_shift word (by decide), split8_a0, split8_a1, split8_a2,
    split8_a3, split8_a4, split8_a5, split8_a6, split8_a7]
  simp only [Finset.sum_range_succ, Finset.sum_range_zero]
  norm_num
  ring

end Activations

theorem scaleX128_eq (native : Bool) (code : BitVec 8) :
    scaleX128 native code = scaleF32 native code * 128 := by
  cases native with
  | true => rfl
  | false =>
    show binaryValue 5 10 (e4m3Half code).toNat * 32768 = e4m3ToF32 code * 128
    unfold e4m3ToF32
    ring

end FreeToken.Nvfp4
