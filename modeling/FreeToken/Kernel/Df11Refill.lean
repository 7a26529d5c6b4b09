/-
**What the bit buffer holds.**
-/

import FreeToken.Kernel.Df11Buffer

namespace FreeToken.Df11

open BitStream List

/-! ### The words of a stream -/

variable (stream : List (BitVec 32))

def wordAt (w : Nat) : Nat := (stream.getD w 0).toNat

theorem wordAt_lt (w : Nat) : wordAt stream w < 2 ^ 32 := BitVec.isLt _

theorem streamAt_eq (w : Nat) : streamAt stream w = some (wordAt stream w) := by
  unfold streamAt wordAt
  rw [getD_eq_getElem?_getD]
  rcases lt_or_ge w stream.length with lt | beyond
  · rw [if_pos (Int.ofNat_lt.mpr lt), if_pos (Int.natCast_nonneg w), Int.toNat_natCast,
      getElem?_eq_getElem lt]
    rfl
  · rw [if_neg (by omega), getElem?_eq_none beyond]
    rfl

theorem loadWord_eq (w : Nat) : loadWord stream true w = some (stream.getD w 0) := by
  unfold loadWord loadAt
  rw [getD_eq_getElem?_getD]
  rcases lt_or_ge w stream.length with lt | beyond
  · rw [if_pos ⟨rfl, Int.ofNat_lt.mpr lt⟩, if_pos (Int.natCast_nonneg w), Int.toNat_natCast,
      getElem?_eq_getElem lt]
    rfl
  · rw [if_neg (by omega), getElem?_eq_none beyond]
    rfl

theorem loadWord_masked (w : Int) : loadWord stream false w = some 0 :=
  if_neg fun both => Bool.false_ne_true both.1

theorem peek_eq (lmax pos : Nat) : peek stream lmax pos =
      some ((wordAt stream (pos / 32) * 2 ^ 32 + wordAt stream (pos / 32 + 1)) /
        2 ^ (2 * 32 - pos % 32 - lmax) % 2 ^ lmax) := by
  have place : (pos : Int) / 32 = ((pos / 32 : Nat) : Int) := (Int.natCast_div _ _).symm
  have offset : ((pos : Int) % 32).toNat = pos % 32 := by omega
  have next : ((pos / 32 : Nat) : Int) + 1 = ((pos / 32 + 1 : Nat) : Int) := rfl
  unfold peek
  dsimp only
  rw [place, offset, next, streamAt_eq, streamAt_eq]
  change some _ = _
  rw [← Nat.shiftLeft_add_eq_or_of_lt (wordAt_lt _ _), Nat.shiftLeft_eq, Nat.shiftRight_eq_div_pow,
    Nat.shiftLeft_eq, one_mul, Nat.and_two_pow_sub_one_eq_mod]

theorem peek_value {lmax pos w : Nat} (narrow : lmax ≤ 32) (behind : pos / 32 + 2 ≤ w) :
    peek stream lmax pos =
      some (value (wordAt stream) 32 w / 2 ^ (32 * w - pos - lmax) % 2 ^ lmax) := by
  obtain ⟨more, rfl⟩ := Nat.exists_eq_add_of_le behind
  have below := Nat.mod_lt pos (show 0 < 32 by decide)
  have whole := Nat.div_add_mod pos 32
  have exponent : 32 * (pos / 32 + 2 + more) - pos - lmax =
      32 * more + (2 * 32 - pos % 32 - lmax) := by omega
  rw [peek_eq, window_shift (wordAt_lt stream) (by omega) _ more, exponent]

/-! ### The invariant -/

namespace BitBuffer

/-- **The valid bits are those of the stream from a bit on**, as far as the words loaded, and the bits
below them are zero. -/
structure Holds (stream : List (BitVec 32)) (buffer : BitBuffer) (pos w n : Nat) : Prop where
  nbits : buffer.nbits = n
  wordidx : buffer.wordidx = w
  short : n ≤ 63
  place : 32 * w = pos + n
  bits : buffer.acc.toNat = value (wordAt stream) 32 w % 2 ^ n * 2 ^ (64 - n)

variable {stream : List (BitVec 32)} {buffer : BitBuffer} {pos w n lmax : Nat}

theorem value_mod_succ (n : Nat) : value (wordAt stream) 32 (w + 1) % 2 ^ (n + 32) =
      value (wordAt stream) 32 w % 2 ^ n * 2 ^ 32 + wordAt stream w := by
  have small := wordAt_lt stream w
  have below := Nat.mod_lt (value (wordAt stream) 32 w) (Nat.two_pow_pos n)
  have whole := Nat.div_add_mod (value (wordAt stream) 32 w) (2 ^ n)
  have split : value (wordAt stream) 32 (w + 1) =
      2 ^ (n + 32) * (value (wordAt stream) 32 w / 2 ^ n) +
        (value (wordAt stream) 32 w % 2 ^ n * 2 ^ 32 + wordAt stream w) := by
    rw [value_succ]
    nth_rewrite 1 [← whole]
    rw [pow_add]
    ring
  have most : (value (wordAt stream) 32 w % 2 ^ n + 1) * 2 ^ 32 ≤ 2 ^ n * 2 ^ 32 :=
    Nat.mul_le_mul_right _ below
  rw [← pow_add, Nat.succ_mul] at most
  rw [split, Nat.mul_add_mod, Nat.mod_eq_of_lt (by omega)]

theorem start_holds (stream : List (BitVec 32)) (pos : Nat) :
    ∃ buffer, start stream true pos = some buffer ∧
      Holds stream buffer pos (pos / 32 + 1) (32 - pos % 32) := by
  have place : (pos : Int) / 32 = ((pos / 32 : Nat) : Int) := (Int.natCast_div _ _).symm
  have offset : ((pos : Int) % 32).toNat = pos % 32 := by omega
  have below := Nat.mod_lt pos (show 0 < 32 by decide)
  have whole := Nat.div_add_mod pos 32
  unfold start
  dsimp only
  rw [place, offset, loadWord_eq]
  refine ⟨_, rfl, ⟨?_, rfl, by omega, by omega, ?_⟩⟩
  · show (32 : Int) - (pos % 32 : Nat) = (32 - pos % 32 : Nat)
    omega
  · have word : (stream.getD (pos / 32) 0).toNat = wordAt stream (pos / 32) := rfl
    have cut : wordAt stream (pos / 32) * 2 ^ (pos % 32) % 2 ^ 32 =
        wordAt stream (pos / 32) % 2 ^ (32 - pos % 32) * 2 ^ (pos % 32) := by
      have split : (2 : Nat) ^ 32 = 2 ^ (32 - pos % 32) * 2 ^ (pos % 32) := by
        rw [← pow_add, Nat.sub_add_cancel below.le]
      rw [split, Nat.mul_mod_mul_right]
    have inWord : value (wordAt stream) 32 (pos / 32 + 1) % 2 ^ (32 - pos % 32) =
        wordAt stream (pos / 32) % 2 ^ (32 - pos % 32) := by
      have split : value (wordAt stream) 32 (pos / 32) * 2 ^ 32 =
          2 ^ (32 - pos % 32) * (value (wordAt stream) 32 (pos / 32) * 2 ^ (pos % 32)) := by
        rw [Nat.mul_left_comm, ← pow_add, Nat.sub_add_cancel below.le]
      rw [value_succ, split, Nat.mul_add_mod]
    have bound : wordAt stream (pos / 32) % 2 ^ (32 - pos % 32) * 2 ^ (pos % 32) < 2 ^ 32 :=
      cut ▸ Nat.mod_lt _ (Nat.two_pow_pos 32)
    have exponent : 64 - (32 - pos % 32) = pos % 32 + 32 := by omega
    rw [BitVec.toNat_shiftLeft, BitVec.toNat_setWidth, BitVec.toNat_shiftLeft, word,
      Nat.shiftLeft_eq, Nat.shiftLeft_eq, cut, inWord, exponent, pow_add, ← Nat.mul_assoc]
    omega

theorem refill_holds (holds : Holds stream buffer pos w n) :
    ∃ next more, refill stream true buffer = some next ∧
      Holds stream next pos (w + more) (n + 32 * more) ∧ 32 ≤ n + 32 * more := by
  have isBits := holds.nbits
  have isWord := holds.wordidx
  have short := holds.short
  have place := holds.place
  by_cases need : n < 32
  · have needed : decide (buffer.nbits < 32) = true := decide_eq_true (by omega)
    have shift : (max (32 - buffer.nbits) 0).toNat = 32 - n := by omega
    unfold refill
    dsimp only
    rw [needed, Bool.true_and, isWord, loadWord_eq, shift]
    refine ⟨_, 1, rfl, ⟨?_, rfl, by omega, by omega, ?_⟩, by omega⟩
    · show buffer.nbits + 32 = ((n + 32 * 1 : Nat) : Int)
      omega
    · have word : (stream.getD w 0).toNat = wordAt stream w := rfl
      have small := wordAt_lt stream w
      have scale : (2 : Nat) ^ (64 - n) = 2 ^ 32 * 2 ^ (32 - n) := by
        rw [← pow_add]
        congr 1
        omega
      have wordBits : wordAt stream w * 2 ^ (32 - n) < 2 ^ (64 - n) := by
        rw [scale]
        exact mul_lt_mul_of_pos_right small (Nat.two_pow_pos _)
      have fits : (2 : Nat) ^ (64 - n) ≤ 2 ^ 64 := Nat.pow_le_pow_right (by decide) (by omega)
      have shifted : ((stream.getD w 0).setWidth 64 <<< (32 - n)).toNat =
          wordAt stream w * 2 ^ (32 - n) := by
        rw [BitVec.toNat_shiftLeft, BitVec.toNat_setWidth, word, Nat.shiftLeft_eq,
          Nat.mod_eq_of_lt (show wordAt stream w < 2 ^ 64 by omega),
          Nat.mod_eq_of_lt (wordBits.trans_le fits)]
      show (buffer.acc ||| (stream.getD w 0).setWidth 64 <<< (32 - n)).toNat = _
      have exponent : 64 - (n + 32 * 1) = 32 - n := by omega
      rw [BitVec.toNat_or, shifted, holds.bits, ← Nat.shiftLeft_eq _ (64 - n),
        ← Nat.shiftLeft_add_eq_or_of_lt wordBits, Nat.shiftLeft_eq, exponent, mul_one,
        value_mod_succ, scale]
      ring
  · have enough : decide (buffer.nbits < 32) = false := decide_eq_false (by omega)
    unfold refill
    dsimp only
    rw [enough, Bool.false_and, loadWord_masked]
    refine ⟨_, 0, rfl, ⟨isBits, isWord, short, place, ?_⟩, by omega⟩
    show (buffer.acc ||| 0#64).toNat = _
    rw [BitVec.or_zero]
    exact holds.bits

theorem drop_holds (holds : Holds stream buffer pos w n) {length : Nat} (within : length ≤ n) :
    Holds stream (buffer.drop length) (pos + length) w (n - length) := by
  have isBits := holds.nbits
  have short := holds.short
  have place := holds.place
  refine ⟨?_, holds.wordidx, by omega, by omega, ?_⟩
  · show buffer.nbits - length = ((n - length : Nat) : Int)
    omega
  · have split : (2 : Nat) ^ 64 = 2 ^ (n - length) * (2 ^ (64 - n) * 2 ^ length) := by
      rw [← pow_add, ← pow_add]
      congr 1
      omega
    have exponent : (2 : Nat) ^ (64 - (n - length)) = 2 ^ (64 - n) * 2 ^ length := by
      rw [← pow_add]
      congr 1
      omega
    show (buffer.acc <<< length).toNat = _
    rw [BitVec.toNat_shiftLeft, Nat.shiftLeft_eq, holds.bits, mul_assoc, split,
      Nat.mul_mod_mul_right, Nat.mod_mod_of_dvd _ (pow_dvd_pow 2 (Nat.sub_le n length)),
      exponent]

/-- The window is then what the reference peeks. -/
theorem window_eq (holds : Holds stream buffer pos w n) (enough : 32 ≤ n) (narrow : lmax ≤ 32) :
    ∃ v < 2 ^ lmax, peek stream lmax pos = some v ∧ buffer.window lmax = wrap32 v := by
  have short := holds.short
  have place := holds.place
  -- the bits that the sign fills are masked
  have masked : buffer.acc.sshiftRight (64 - lmax) &&& BitVec.ofNat 64 ((1 <<< lmax) - 1) =
      buffer.acc >>> (64 - lmax) := by
    apply BitVec.eq_of_getLsbD_eq
    intro i lt
    have mask : (BitVec.ofNat 64 ((1 <<< lmax) - 1)).getLsbD i = decide (i < lmax) := by
      rw [BitVec.getLsbD_ofNat, Nat.shiftLeft_eq, Nat.one_mul, Nat.testBit_two_pow_sub_one,
        decide_eq_true lt, Bool.true_and]
    rw [BitVec.getLsbD_and, BitVec.getLsbD_sshiftRight, BitVec.getLsbD_ushiftRight, mask]
    by_cases low : i < lmax
    · rw [decide_eq_true low, Bool.and_true, decide_eq_false (by omega), if_pos (by omega)]
      rfl
    · rw [decide_eq_false low, Bool.and_false, BitVec.getLsbD_of_ge _ _ (by omega)]
  have scale : (2 : Nat) ^ (64 - lmax) = 2 ^ (64 - n) * 2 ^ (n - lmax) := by
    rw [← pow_add]
    congr 1
    omega
  have cut : (2 : Nat) ^ n = 2 ^ (n - lmax) * 2 ^ lmax := by
    rw [← pow_add, Nat.sub_add_cancel (by omega)]
  have bits : (buffer.acc >>> (64 - lmax)).toNat =
      value (wordAt stream) 32 w / 2 ^ (n - lmax) % 2 ^ lmax := by
    rw [BitVec.toNat_ushiftRight, Nat.shiftRight_eq_div_pow, holds.bits, scale,
      Nat.mul_comm _ (2 ^ (64 - n)), Nat.mul_div_mul_left _ _ (Nat.two_pow_pos _), cut,
      Nat.mod_mul_right_div_self]
  have exponent : 32 * (w + 1) - pos - lmax = 32 * 1 + (n - lmax) := by omega
  have peeked := @peek_value stream lmax pos (w + 1) narrow (by omega)
  rw [exponent, pow_add, ← Nat.div_div_eq_div_mul, value_div (wordAt_lt stream)] at peeked
  refine ⟨_, Nat.mod_lt _ (Nat.two_pow_pos _), peeked, ?_⟩
  unfold window wrap32
  rw [masked, ← bits, BitVec.ofInt_natCast]
  rfl

end BitBuffer

end FreeToken.Df11
