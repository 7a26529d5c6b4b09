/-
**The split of the misses between the GPU and the CPU.**
-/

import FreeToken.Moe.HybridFetch

namespace FreeToken.OffloadMoeCache

variable {Bank Bytes : Type}

/-! ### The kernel's integers -/

/-- The fraction of the misses, rounded down. -/
def share (m q : Nat) : Nat := m * q / 2 ^ 16

/-- The slower side of the overlap: the fetches over the bus, or the other misses on the CPU. -/
def splitCost (m q : Nat) (f : Int) : Int := max (f * (2 ^ 16 - q)) ((m - f) * q)

section Words

variable {x y : BitVec 32} {a b : Int}

theorem toInt_tlMaximum (isX : x.toInt = a) (isY : y.toInt = b) :
    (tlMaximum x y).toInt = max a b := by
  subst isX isY
  unfold tlMaximum
  rw [BitVec.sle_eq_decide]
  rcases Int.le_total x.toInt y.toInt with le | ge
  · rw [max_eq_right le, if_pos (decide_eq_true le)]
  · rw [max_eq_left ge]
    split
    · next below => exact le_antisymm ge (of_decide_eq_true below)
    · rfl

theorem toInt_tlMinimum (isX : x.toInt = a) (isY : y.toInt = b) (le : b ≤ a) :
    (tlMinimum x y).toInt = b := by
  subst isX isY
  unfold tlMinimum
  rw [BitVec.sle_eq_decide]
  split
  · next above => exact le_antisymm (of_decide_eq_true above) le
  · rfl

theorem bmod_of_small {z : Int} (low : -2 ^ 31 ≤ z) (high : z < 2 ^ 31) : z.bmod (2 ^ 32) = z :=
  Int.bmod_eq_of_le_mul_two (by omega) (by omega)

theorem toInt_mul_of (isX : x.toInt = a) (isY : y.toInt = b) (low : -2 ^ 31 ≤ a * b)
    (high : a * b < 2 ^ 31) : (x * y).toInt = a * b := by
  rw [BitVec.toInt_mul, isX, isY, bmod_of_small low high]

theorem toInt_sub_of (isX : x.toInt = a) (isY : y.toInt = b) (low : -2 ^ 31 ≤ a - b)
    (high : a - b < 2 ^ 31) : (x - y).toInt = a - b := by
  rw [BitVec.toInt_sub, isX, isY, bmod_of_small low high]

theorem toInt_add_of (isX : x.toInt = a) (isY : y.toInt = b) (low : -2 ^ 31 ≤ a + b)
    (high : a + b < 2 ^ 31) : (x + y).toInt = a + b := by
  rw [BitVec.toInt_add, isX, isY, bmod_of_small low high]

theorem toInt_ofNat_of {n : Nat} (small : n < 2 ^ 31) : (BitVec.ofNat 32 n).toInt = n :=
  (BitVec.toInt_ofNat' ..).trans (bmod_of_small (by omega) (by omega))

end Words

/-! ### The split -/

section Split

variable {m q : Nat}

theorem share_le (most : q ≤ 2 ^ 16) : share m q ≤ m := by
  have bound := Nat.div_le_div_right (c := 2 ^ 16) (Nat.mul_le_mul_left m most)
  rwa [Nat.mul_div_cancel _ (Nat.two_pow_pos 16)] at bound

theorem kernelSplit_toInt (pos : 0 < q) (most : q ≤ 2 ^ 16) (small : m * q < 2 ^ 31) :
    (kernelSplit (BitVec.ofNat 32 m) (BitVec.ofNat 32 q)).toInt =
      if splitCost m q (share m q) ≤ splitCost m q (share m q + 1) then (share m q : Int)
      else share m q + 1 := by
  have misses : m ≤ m * q := Nat.le_mul_of_pos_right m pos
  have isM : (BitVec.ofNat 32 m).toInt = m := toInt_ofNat_of (by omega)
  have isQ : (BitVec.ofNat 32 q).toInt = q := toInt_ofNat_of (by omega)
  have isRest : ((65536 : BitVec 32) - BitVec.ofNat 32 q).toInt = 65536 - q :=
    toInt_sub_of rfl isQ (by omega) (by omega)
  have isProduct : (BitVec.ofNat 32 m * BitVec.ofNat 32 q).toInt = m * q :=
    toInt_mul_of isM isQ (by rw [← Nat.cast_mul]; omega) (by rw [← Nat.cast_mul]; omega)
  have isLo : ((BitVec.ofNat 32 m * BitVec.ofNat 32 q).sshiftRight 16).toInt = share m q := by
    rw [BitVec.toInt_sshiftRight, isProduct, Int.shiftRight_eq_div_pow]
    rfl
  have few : share m q < 2 ^ 15 := by unfold share; omega
  have within : share m q ≤ m := share_le most
  unfold kernelSplit splitCost
  generalize share m q = lo at *
  generalize (BitVec.ofNat 32 m * BitVec.ofNat 32 q).sshiftRight 16 = low at *
  have isNext : (low + 1).toInt = lo + 1 := toInt_add_of isLo rfl (by omega) (by omega)
  have isLeft : (BitVec.ofNat 32 m - low).toInt = m - lo :=
    toInt_sub_of isM isLo (by omega) (by omega)
  have isFewer : (BitVec.ofNat 32 m - low - 1).toInt = m - lo - 1 :=
    toInt_sub_of isLeft rfl (by omega) (by omega)
  have whole : (m : Int) * q < 2 ^ 31 := by exact_mod_cast small
  have some_ : (0 : Int) ≤ q := Int.natCast_nonneg q
  have rest : (0 : Int) ≤ 65536 - q := by omega
  have share : ((lo : Int) + 1) * (65536 - q) ≤ 2 ^ 15 * (65536 - q) :=
    mul_le_mul_of_nonneg_right (by omega) rest
  have fetched : (0 : Int) ≤ lo * (65536 - q) := mul_nonneg (Int.natCast_nonneg lo) rest
  have left : (0 : Int) ≤ (m - lo) * q := mul_nonneg (by omega) some_
  have fewer : ((m : Int) - lo) * q ≤ m * q := mul_le_mul_of_nonneg_right (by omega) some_
  have cost := toInt_tlMaximum (toInt_mul_of isLo isRest (by linarith) (by linarith))
    (toInt_mul_of isLeft isQ (by linarith) (by linarith))
  have costNext := toInt_tlMaximum (toInt_mul_of isNext isRest (by linarith) (by linarith))
    (toInt_mul_of isFewer isQ (by linarith) (by linarith))
  dsimp only
  rw [BitVec.sle_eq_decide, cost, costNext, sub_sub]
  norm_num only [decide_eq_true_eq]
  split
  · exact isLo
  · exact isNext

theorem splitCost_floor (f : Nat) (most : q ≤ 2 ^ 16) :
    if f ≤ share m q then splitCost m q (share m q) ≤ splitCost m q f
    else splitCost m q (share m q + 1) ≤ splitCost m q f := by
  have floor : share m q * 2 ^ 16 ≤ m * q ∧ m * q < (share m q + 1) * 2 ^ 16 := by
    unfold share
    omega
  generalize share m q = lo at *
  zify at floor most
  have rest : (0 : Int) ≤ 2 ^ 16 - q := by omega
  split
  · next below =>
    have slower : ((m : Int) - lo) * q ≤ (m - f) * q :=
      mul_le_mul_of_nonneg_right (by omega) (Int.natCast_nonneg q)
    exact (max_le (by linarith) slower).trans (le_max_right _ _)
  · next above =>
    have slower : ((lo : Int) + 1) * (2 ^ 16 - q) ≤ f * (2 ^ 16 - q) :=
      mul_le_mul_of_nonneg_right (by omega) rest
    exact (max_le slower (by linarith)).trans (le_max_left _ _)

theorem splitCost_all (most : q ≤ 2 ^ 16) : splitCost m q m ≤ splitCost m q (m + 1) := by
  have rest : (0 : Int) ≤ 2 ^ 16 - q := by omega
  have more : (m : Int) * (2 ^ 16 - q) ≤ (m + 1) * (2 ^ 16 - q) :=
    mul_le_mul_of_nonneg_right (by omega) rest
  have none : ((m : Int) - m) * q ≤ (m + 1) * (2 ^ 16 - q) := by
    rw [sub_self, zero_mul]
    exact mul_nonneg (by omega) rest
  exact (max_le more none).trans (le_max_left _ _)

/-- A wrapped product is short by `2 ^ 32` at least. -/
theorem kernelFetch_lt (large : 2 ^ 31 ≤ m * q) :
    (kernelFetch (.ofNat 32 m) (.ofNat 32 q)).toInt < share m q := by
  have lo : ((BitVec.ofNat 32 m * BitVec.ofNat 32 q).sshiftRight 16).toInt < share m q - 1 ∧
      ((BitVec.ofNat 32 m * BitVec.ofNat 32 q).sshiftRight 16).toInt < 2 ^ 15 ∧
      -2 ^ 15 ≤ ((BitVec.ofNat 32 m * BitVec.ofNat 32 q).sshiftRight 16).toInt := by
    rw [BitVec.toInt_sshiftRight, ← BitVec.ofNat_mul, BitVec.toInt_ofNat', Int.shiftRight_eq_div_pow,
      Int.bmod_def]
    unfold share
    generalize m * q = product at large ⊢
    split
    · omega
    · omega
  have least : (kernelFetch (.ofNat 32 m) (.ofNat 32 q)).toInt ≤
      (kernelSplit (.ofNat 32 m) (.ofNat 32 q)).toInt := by
    unfold kernelFetch tlMinimum
    split
    · next below =>
      rw [BitVec.sle_eq_decide] at below
      exact of_decide_eq_true below
    · exact le_rfl
  refine least.trans_lt ?_
  unfold kernelSplit
  generalize (BitVec.ofNat 32 m * BitVec.ofNat 32 q).sshiftRight 16 = low at lo ⊢
  have next : (low + 1).toInt = low.toInt + 1 := toInt_add_of rfl rfl (by omega) (by omega)
  dsimp only
  split
  · omega
  · rw [next]
    omega

/-- The mirror's cap is one of the neighbours of the share. -/
theorem share_le_maxFetch (cfg : OffloadConfig Bank Bytes) (pos : 0 < cfg.fracQ16) :
    (share m cfg.fracQ16 : Int) ≤ maxFetch cfg m := by
  unfold maxFetch
  rw [if_pos pos]
  dsimp only
  split
  · exact le_rfl
  · exact Int.le_add_one le_rfl

end Split

theorem kernelFetch_least (cfg : OffloadConfig Bank Bytes) {m : Nat}
    (pos : 0 < cfg.fracQ16) (most : cfg.fracQ16 ≤ 2 ^ 16)
    (small : m * cfg.fracQ16 < 2 ^ 31) :
    ∃ f ≤ m, (kernelFetch (.ofNat 32 m) (.ofNat 32 cfg.fracQ16)).toInt = f ∧
      (kernelSplit (.ofNat 32 m) (.ofNat 32 cfg.fracQ16)).toInt = f ∧ maxFetch cfg m = f ∧
      ∀ g ≤ m, splitCost m cfg.fracQ16 f ≤ splitCost m cfg.fracQ16 g := by
  have computed := kernelSplit_toInt pos most small
  have mirror : maxFetch cfg m = (kernelSplit (.ofNat 32 m) (.ofNat 32 cfg.fracQ16)).toInt :=
    (if_pos pos).trans computed.symm
  have misses : m ≤ m * cfg.fracQ16 := Nat.le_mul_of_pos_right m pos
  have isM : (BitVec.ofNat 32 m).toInt = m := toInt_ofNat_of (by omega)
  have whole := @share_le m _ most
  -- Either neighbour costs no more than the numbers on its side of the share.
  have best := fun g => @splitCost_floor m cfg.fracQ16 g most
  rw [mirror]
  suffices ∃ f ≤ m, (kernelSplit (.ofNat 32 m) (.ofNat 32 cfg.fracQ16)).toInt = (f : Nat) ∧
      ∀ g ≤ m, splitCost m cfg.fracQ16 f ≤ splitCost m cfg.fracQ16 g by
    obtain ⟨f, within, split, least⟩ := this
    exact ⟨f, within, toInt_tlMinimum isM split (by omega), split, split, least⟩
  rw [computed]
  have all := @splitCost_all m cfg.fracQ16 most
  generalize share m cfg.fracQ16 = lo at *
  split
  · next cheaper =>
    refine ⟨lo, whole, rfl, fun g _ => ?_⟩
    have side := best g
    split at side
    · exact side
    · exact cheaper.trans side
  · next dearer =>
    refine ⟨lo + 1, ?_, by rw [Nat.cast_succ], fun g _ => ?_⟩
    · rcases lt_or_eq_of_le whole with below | rfl
      · exact below
      · exact absurd all dearer
    · have side := best g
      rw [Nat.cast_succ]
      split at side
      · exact (not_le.mp dearer).le.trans side
      · exact side

/-- **The kernel fetches as many as the mirror, and no other number of fetches costs less, exactly when
its products do not wrap.** -/
theorem kernelFetch_optimal_iff (cfg : OffloadConfig Bank Bytes) {m : Nat}
    (pos : 0 < cfg.fracQ16) (most : cfg.fracQ16 ≤ 2 ^ 16) :
    (∃ f ≤ m, (kernelFetch (.ofNat 32 m) (.ofNat 32 cfg.fracQ16)).toInt = f ∧
      (kernelSplit (.ofNat 32 m) (.ofNat 32 cfg.fracQ16)).toInt = f ∧ maxFetch cfg m = f ∧
      ∀ g ≤ m, splitCost m cfg.fracQ16 f ≤ splitCost m cfg.fracQ16 g) ↔
      m * cfg.fracQ16 < 2 ^ 31 := by
  refine ⟨fun ⟨f, _, fetched, _, mirror, _⟩ => ?_, kernelFetch_least cfg pos most⟩
  by_contra large
  have short := kernelFetch_lt (not_lt.mp large)
  rw [fetched, ← mirror] at short
  exact absurd (share_le_maxFetch cfg pos) (not_le.mpr short)

theorem kernelFetch_optimal_half :
    ∃ f ≤ 3, (kernelFetch (.ofNat 32 3) (.ofNat 32 (2 ^ 15))).toInt = (f : Nat) ∧
      (kernelSplit (.ofNat 32 3) (.ofNat 32 (2 ^ 15))).toInt = f ∧
      maxFetch { flatConfig with fracQ16 := 2 ^ 15 } 3 = f ∧
      ∀ g ≤ (3 : Nat), splitCost 3 (2 ^ 15) f ≤ splitCost 3 (2 ^ 15) g :=
  (@kernelFetch_optimal_iff _ _ { flatConfig with fracQ16 := 2 ^ 15 } 3 (by decide) (by decide)).mpr
    (by decide)

/-- At `2 ^ 15` misses that are all to be fetched the product is `2 ^ 31`. -/
theorem kernelFetch_wraps :
    ¬∃ f ≤ 2 ^ 15, (kernelFetch (.ofNat 32 (2 ^ 15)) (.ofNat 32 (2 ^ 16))).toInt = (f : Nat) := by
  have negative : (kernelFetch (.ofNat 32 (2 ^ 15)) (.ofNat 32 (2 ^ 16))).toInt = -2 ^ 15 := by decide
  rw [negative]
  omega

/-! ### The two numbers of fetches -/

/-- Without a wrap the kernel's number of fetches is the mirror's. -/
theorem kernelNumFetch_eq {cfg : OffloadConfig Bank Bytes} {m : Nat}
    (most : cfg.fracQ16 ≤ 2 ^ 16) (small : cfg.fracQ16 = 0 ∨ m * cfg.fracQ16 < 2 ^ 31) :
    kernelNumFetch cfg m = min (m : Int) (maxFetch cfg m) := by
  unfold kernelNumFetch
  split
  · next pos =>
    obtain ⟨f, within, fetched, -, mirror, -⟩ :=
      kernelFetch_least cfg pos most (small.resolve_left (by omega))
    rw [fetched, mirror, min_eq_right (by exact_mod_cast within)]
  · next nothing =>
    unfold maxFetch
    rw [if_neg nothing]

/-- With a wrap it is less. -/
theorem kernelNumFetch_lt {cfg : OffloadConfig Bank Bytes} {m : Nat}
    (most : cfg.fracQ16 ≤ 2 ^ 16) (large : 2 ^ 31 ≤ m * cfg.fracQ16) :
    (kernelNumFetch cfg m).toNat < (min (m : Int) (maxFetch cfg m)).toNat := by
  have pos : 0 < cfg.fracQ16 := by
    by_contra none
    rw [Nat.eq_zero_of_not_pos none, Nat.mul_zero] at large
    exact absurd large (by decide)
  have short := kernelFetch_lt large
  have mirror := @share_le_maxFetch _ _ m cfg pos
  have whole := @share_le m _ most
  have some_ : 0 < share m cfg.fracQ16 := by
    unfold share
    omega
  unfold kernelNumFetch
  rw [if_pos pos]
  omega

end FreeToken.OffloadMoeCache
