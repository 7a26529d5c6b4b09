/-
**The thresholds of the top-k and the top-p stage.**
-/

import FreeToken.Kernel.SamplingRounds

namespace FreeToken.Sampling

open List

/-! ### Numbers and patterns -/

theorem units_strictMono : StrictMono units := by
  apply strictMono_nat_of_lt_succ
  intro y
  unfold units
  rcases Nat.lt_or_ge (y + 1) (2 ^ 23) with small | large
  · rw [if_pos small, if_pos (by omega)]
    exact Nat.lt_succ_self y
  rw [if_neg (not_lt.mpr large)]
  rcases Nat.lt_or_ge y (2 ^ 23) with small | normal
  · have edge : y + 1 = 2 ^ 23 := by omega
    rw [if_pos small, edge]
    exact lt_of_lt_of_eq small rfl
  rw [if_neg (not_lt.mpr normal)]
  obtain ⟨e, isExponent⟩ : ∃ e, y / 2 ^ 23 = e + 1 := ⟨y / 2 ^ 23 - 1, by omega⟩
  have pos := Nat.two_pow_pos e
  rcases Nat.lt_or_ge (y % 2 ^ 23 + 1) (2 ^ 23) with within | wraps
  · have sameExponent : (y + 1) / 2 ^ 23 = e + 1 := by omega
    have nextMantissa : (y + 1) % 2 ^ 23 = y % 2 ^ 23 + 1 := by omega
    rw [sameExponent, nextMantissa, isExponent, Nat.add_sub_cancel]
    exact Nat.mul_lt_mul_of_pos_right (by omega) pos
  · have nextExponent : (y + 1) / 2 ^ 23 = e + 2 := by omega
    have noMantissa : (y + 1) % 2 ^ 23 = 0 := by omega
    rw [nextExponent, noMantissa, isExponent, Nat.add_sub_cancel, show e + 2 - 1 = e + 1 by omega,
      Nat.pow_succ 2 e, Nat.add_zero]
    calc (2 ^ 23 + y % 2 ^ 23) * 2 ^ e < (2 ^ 23 * 2) * 2 ^ e :=
          Nat.mul_lt_mul_of_pos_right (by omega) pos
      _ = 2 ^ 23 * (2 ^ e * 2) := by rw [Nat.mul_assoc, Nat.mul_comm 2]

theorem value_lt_iff {v y : Nat} : value v < value y ↔ v < y := by
  unfold value
  rw [div_lt_div_iff_of_pos_right (by positivity), Nat.cast_lt]
  exact units_strictMono.lt_iff_lt

/-- Patterns are ordered as their numbers. -/
theorem value_le_iff {v y : Nat} : value v ≤ value y ↔ v ≤ y := by
  rw [← not_lt, value_lt_iff, not_lt]

theorem value_zero : value 0 = 0 := by
  unfold value units
  simp

theorem value_pos_iff {y : Nat} : 0 < value y ↔ 0 < y := by
  calc 0 < value y ↔ value 0 < value y := by rw [value_zero]
    _ ↔ 0 < y := value_lt_iff

/-- The patterns that are numbers, as integers of 32 bits, and those above all numbers. -/
def Comparable (thr : Int) : Prop := -2 ^ 31 ≤ thr ∧ (0 ≤ thr ∨ thr + 2 ^ 31 ≤ infBits)

/-- So a lane is kept by its pattern. -/
theorem keeps_iff {y : Nat} (finite : y < 0x7F800000) {thr : Int} (comparable : Comparable thr) :
    keeps y thr = true ↔ thr ≤ y := by
  unfold keeps
  by_cases nonneg : 0 ≤ thr
  · rw [if_pos nonneg, decide_eq_true_iff, value_le_iff]
    unfold infBits
    omega
  · rw [if_neg nonneg, decide_eq_true_iff]
    exact iff_of_true (comparable.2.resolve_left nonneg) (by omega)

/-! ### What is kept -/

variable (row : ProbRow)

def ProbRow.kept (thr : Int) (off : Nat) : ℚ :=
  if thr ≤ row.pattern off then value (row.pattern off) else 0

def ProbRow.cdf (thr : Int) (n : Nat) : ℚ := ((List.range n).map (row.kept thr)).sum

def ProbRow.mass (thr : Int) : ℚ := row.cdf thr row.bits.length

theorem ProbRow.kept_nonneg (thr : Int) (off : Nat) : 0 ≤ row.kept thr off := by
  unfold ProbRow.kept
  split
  · exact value_nonneg _
  · exact le_rfl

theorem mass_nonneg (thr : Int) : 0 ≤ row.mass thr := by
  refine sum_nonneg fun x mem => ?_
  obtain ⟨off, -, rfl⟩ := mem_map.mp mem
  exact row.kept_nonneg thr off

section Kept

variable (row : ProbRow) (grid : Grid row.bits.length) {thr : Int} (comparable : Comparable thr)

include comparable

theorem laneMass_eq (stop off : Nat) :
    laneMass row thr stop off = if off < stop then row.kept thr off else 0 := by
  unfold laneMass ProbRow.kept
  rw [← ite_and]
  exact if_congr (and_congr_right fun _ => keeps_iff (pattern_lt row off) comparable) rfl rfl

/-- What all CTAs keep is the mass of the entries from the threshold on. -/
theorem keptSum_eq : keptSum row grid thr = row.mass thr := by
  have total := sum_ctas row grid fun y => if thr ≤ (y : Int) then value y else 0
  rw [← sum_row] at total
  refine Eq.trans ?_ total
  refine congrArg sum (map_congr_left fun cta _ => ?_)
  refine congrArg sum (map_congr_left fun s0 _ => ?_)
  exact congrArg sum (map_congr_left fun off _ => laneMass_eq row comparable _ off)

end Kept

theorem mass_eq_tailWeight (v : Nat) : row.mass v = tailWeight row.bits value v := by
  unfold ProbRow.mass ProbRow.cdf ProbRow.kept tailWeight
  rw [← sum_row]
  simp only [Nat.cast_le]

theorem countP_eq_tailWeight (bits : List Nat) (v : Nat) :
    (bits.countP (v ≤ ·) : Int) = tailWeight bits (fun _ => (1 : Int)) v := by
  unfold tailWeight
  induction bits with
  | nil => rfl
  | cons y bits ih =>
    rw [map_cons, sum_cons, ← ih, countP_cons]
    by_cases reached : v ≤ y
    · simp [reached, Int.add_comm]
    · simp [reached]

/-! ### The top-k stage -/

section TopK

variable (row : ProbRow) (grid : Grid row.bits.length) {k : Int} (pos : 1 ≤ k)

include pos

/-- Zero for a short row. -/
theorem topkBits_short (short : (row.bits.length : Int) < k) : topkBits row grid k = 0 := by
  have none : tailWeight row.bits (fun _ => (1 : Int)) 0 < max k 1 := by
    rw [← countP_eq_tailWeight, countP_eq_length.mpr (by simp)]
    omega
  have stays : ∀ (m s width : Nat), m ≤ 256 → widthOf width = m * 2 ^ s →
      bitsRound row grid (max k 1) (0, 0) (s, width) = (0, 0) := by
    intro m s width reach isWidth
    have isBin : histogram row grid 0 s width =
        binWeight row.bits (fun _ => (1 : Int)) 0 (m * 2 ^ s) (2 ^ s) := by
      funext jj
      rw [← isWidth]
      exact histogram_eq (by decide) jj
    have nonneg : 0 ≤ tailWeight row.bits (fun _ => (1 : Int)) (0 + m * 2 ^ s) := by
      rw [← countP_eq_tailWeight]
      exact Int.natCast_nonneg _
    have absent : lastOk 256 (binWeight row.bits (fun _ => (1 : Int)) 0 (m * 2 ^ s) (2 ^ s)) 0
        (max k 1) = -1 := short_lastOk one_nonneg none nonneg reach
    unfold bitsRound
    dsimp only
    rw [isBin, show kBins = 256 from rfl, absent]
    rfl
  unfold topkBits rounds
  rw [foldl_cons, stays 256 23 0 le_rfl rfl, foldl_cons, stays 256 15 _ le_rfl rfl,
    foldl_cons, stays 256 7 _ le_rfl rfl, foldl_cons, stays 128 0 _ (by decide) rfl,
    foldl_nil]

/-- Else the k-th largest entry. -/
theorem topkBits_kth (enough : k ≤ row.bits.length) : ∃ v ∈ row.bits, topkBits row grid k = v ∧
      (row.bits.countP (v < ·) : Int) < k ∧ k ≤ row.bits.countP (v ≤ ·) := by
  have target : max k 1 = k := max_eq_left pos
  have bracket : Bracket row.bits (fun _ => (1 : Int)) k 0 (2 ^ 31) 0 := by
    refine ⟨?_, by omega, ?_⟩
    · rw [← countP_eq_tailWeight, eq_comm, Int.natCast_eq_zero, countP_eq_zero]
      intro y mem
      have finite := row.finite y mem
      rw [decide_eq_true_iff]
      omega
    · rw [← countP_eq_tailWeight, countP_eq_length.mpr (by simp)]
      exact enough
  obtain ⟨thr, above, isThr, -, last⟩ := rounds_narrow (bitsRound_narrows row grid k) bracket
  obtain ⟨y, mem, low, high⟩ := last.entry
  obtain rfl : y = thr := by omega
  refine ⟨y, mem, ?_, ?_, ?_⟩
  · unfold topkBits
    rw [target]
    exact congrArg Prod.fst isThr
  · have beyond := last.beyond
    rw [last.behind, ← countP_eq_tailWeight] at beyond
    exact beyond
  · rw [countP_eq_tailWeight]
    exact last.reached

end TopK

/-! ### The top-p stage -/

section TopP

variable (row : ProbRow) (grid : Grid row.bits.length) {target : ℚ}

/-- The largest value whose mass reaches the target. -/
theorem topp_greatest (pos : 0 < target) {lo : Nat} (reached : target ≤ row.mass lo) :
    ∃ v ∈ row.bits, (rounds.foldl (pmassRound row grid target) ((lo : Int), 0)).1 = (v : Int) ∧
      IsGreatest {w : Nat | lo ≤ w ∧ target ≤ row.mass w} v := by
  have bracket : Bracket row.bits value target lo (2 ^ 31) 0 := by
    refine ⟨?_, pos, ?_⟩
    · symm
      apply sum_eq_zero
      intro x mem
      obtain ⟨y, isEntry, rfl⟩ := mem_map.mp mem
      have finite := row.finite y isEntry
      exact if_neg (by omega)
    · rw [← mass_eq_tailWeight]
      exact reached
  obtain ⟨thr, above, isThr, low, last⟩ := rounds_narrow (pmassRound_narrows row grid target) bracket
  obtain ⟨y, mem, least, high⟩ := last.entry
  obtain rfl : y = thr := by omega
  obtain ⟨reaches, upper⟩ := last.greatest value_nonneg
  refine ⟨y, mem, congrArg Prod.fst isThr, ⟨low, ?_⟩, fun w isBelow => upper ?_⟩
  · rw [mass_eq_tailWeight]
    exact reaches
  · have mass := isBelow.2
    rw [mass_eq_tailWeight] at mass
    exact mass

/-- Zero where no mass reaches it. -/
theorem topp_short (short : row.mass 0 < target) :
    (rounds.foldl (pmassRound row grid target) (0, 0)).1 = 0 := by
  have none : tailWeight row.bits value 0 < target := by
    rw [← mass_eq_tailWeight]
    exact short
  have stays : ∀ (m s width : Nat) (above : ℚ), 0 < m → m ≤ 256 → widthOf width = m * 2 ^ s →
      above ≤ tailWeight row.bits value (0 + m * 2 ^ s) → ∃ behind,
        pmassRound row grid target (0, above) (s, width) = (0, behind) ∧
          behind ≤ tailWeight row.bits value (0 + 2 ^ s) := by
    intro m s width above some_ reach isWidth isBehind
    have isBin : binMasses row grid 0 s width = binWeight row.bits value 0 (m * 2 ^ s) (2 ^ s) := by
      funext jj
      rw [← isWidth]
      exact binMasses_eq (by decide) jj
    have absent : lastOk 256 (binWeight row.bits value 0 (m * 2 ^ s) (2 ^ s)) above target = -1 :=
      short_lastOk value_nonneg none isBehind reach
    have split := tailWeight_bins row.bits value 0 (Nat.two_pow_pos s) reach (show 1 ≤ m from some_)
    unfold pmassRound
    dsimp only
    rw [isBin, show pmBins = 256 from rfl, absent, show max (-1 : Int) 0 = (0 : Nat) from rfl,
      behind_eq]
    refine ⟨above + fromBin 256 (binWeight row.bits value 0 (m * 2 ^ s) (2 ^ s)) 1,
      Prod.ext_iff.mpr ⟨?_, rfl⟩, ?_⟩
    · rw [Int.natCast_zero, Int.zero_shiftLeft, Int.add_zero, wrap32_eq] <;> omega
    · rw [one_mul] at split
      rw [← split]
      exact add_le_add_left isBehind _
  obtain ⟨above1, first, behind1⟩ := stays 256 23 0 0 (by decide) le_rfl rfl
    (by rw [← mass_eq_tailWeight]; exact mass_nonneg row _)
  obtain ⟨above2, second, behind2⟩ := stays 256 15 (1 <<< 23) above1 (by decide) le_rfl rfl behind1
  obtain ⟨above3, third, behind3⟩ := stays 256 7 (1 <<< 15) above2 (by decide) le_rfl rfl behind2
  obtain ⟨above4, fourth, -⟩ := stays 128 0 (1 <<< 7) above3 (by decide) (by decide) rfl behind3
  unfold rounds
  rw [foldl_cons, first, foldl_cons, second, foldl_cons, third, foldl_cons, fourth, foldl_nil]

/-- What the rounds end with where there is no mass at all. -/
theorem topp_zero (none : ∀ off, value (row.pattern off) = 0) :
    (rounds.foldl (pmassRound row grid 0) (0, 0)).1 = -2147483521 := by
  have empty : ∀ (lo : Int) (s width : Nat), binMasses row grid lo s width = fun _ => 0 := by
    intro lo s width
    funext jj
    unfold binMasses ctaMass
    simp [none]
  have climbs : ∀ (lo : Int) (s width : Nat),
      pmassRound row grid 0 (lo, 0) (s, width) = (wrap32 (lo + 255 <<< s), 0) := by
    intro lo s width
    have zero : ∀ j, fromBin 256 (fun _ => (0 : ℚ)) j = 0 := by
      intro j
      apply sum_eq_zero
      intro x mem
      obtain ⟨i, -, rfl⟩ := mem_map.mp mem
      exact ite_self _
    have isLast : lastOk 256 (fun _ => (0 : ℚ)) 0 0 = 255 := by
      rcases lastOk_spec 256 (fun _ => (0 : ℚ)) 0 0 with ⟨j, lt, isLast, -, later⟩ | ⟨-, never⟩
      · by_contra other
        have more := later 255 (by decide) (by omega)
        rw [zero] at more
        exact absurd more (by simp)
      · have some_ := never 0 (by decide)
        rw [zero] at some_
        exact absurd some_ (by simp)
    unfold pmassRound
    dsimp only
    rw [empty, show pmBins = 256 from rfl, isLast]
    refine Prod.ext_iff.mpr ⟨rfl, (behind_eq (fun _ => (0 : ℚ)) 0 255).trans ?_⟩
    rw [zero, add_zero]
  unfold rounds
  rw [foldl_cons, climbs, foldl_cons, climbs, foldl_cons, climbs, foldl_cons, climbs, foldl_nil]
  decide

end TopP

end FreeToken.Sampling
