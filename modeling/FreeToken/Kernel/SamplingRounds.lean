/-
**The radix rounds over a row of probabilities.**

* `bitsRounds_bracket`, `pmassRounds_bracket`: the four rounds narrow it to one pattern.
-/

import FreeToken.Kernel.Sampling
import FreeToken.Lib.BracketSearch
import Mathlib.Data.List.GetD
import Mathlib.Tactic.Abel
import Mathlib.Tactic.Positivity

namespace FreeToken.Sampling

open List

/-! ### The bins of a row -/

section Bins

variable (row : ProbRow) (grid : Grid row.bits.length)

theorem pattern_lt (off : Nat) : row.pattern off < 0x7F800000 := by
  unfold ProbRow.pattern
  rcases lt_or_ge off row.bits.length with lt | past
  · rw [getD_eq_getElem _ _ lt]
    exact row.finite _ (getElem_mem lt)
  · rw [getD_eq_default _ _ past]
    decide

theorem sum_row {M : Type} [AddCommMonoid M] (f : Nat → M) :
    ((List.range row.bits.length).map fun off => f (row.pattern off)).sum = (row.bits.map f).sum := by
  refine congrArg sum (ext_getElem (by simp) fun i lt _ => ?_)
  rw [length_map, length_range] at lt
  rw [getElem_map, getElem_range, getElem_map, ProbRow.pattern, getD_eq_getElem _ _ lt]

theorem sum_ctas {M : Type} [AddCommMonoid M] (f : Nat → M) :
    ((List.range grid.ctas).map fun cta => ((grid.blocks cta).map fun s0 =>
      ((blockLanes grid.block s0).map fun off =>
        if off < grid.stop cta then f (row.pattern off) else 0).sum).sum).sum =
      (row.bits.map f).sum := by
  rw [← sum_row]
  exact sum_chunks grid.covers grid.lanes fun off => f (row.pattern off)

end Bins

def widthOf (width : Nat) : Nat := if width = 0 then 2 ^ 31 else width

theorem inRange_eq {y lo width : Nat} (finite : y < 0x7F800000) (small : lo < 2 ^ 31) :
    inRange true y lo width = decide (lo ≤ y ∧ y < lo + widthOf width) := by
  unfold inRange widthOf infBits
  rw [wrap32_eq (by omega) (by omega)]
  split
  · rw [Bool.eq_iff_iff]
    simp only [Bool.true_and, Bool.and_eq_true, decide_eq_true_eq]
    omega
  · rw [Bool.eq_iff_iff]
    simp only [Bool.true_and, Bool.and_eq_true, decide_eq_true_eq]
    omega

theorem binOf_eq {y lo s : Nat} (finite : y < 0x7F800000) (small : lo < 2 ^ 31) (low : lo ≤ y) :
    binOf y lo s = ((y - lo) / 2 ^ s : Nat) := by
  unfold binOf
  rw [wrap32_eq (by omega) (by omega), Int.shiftRight_eq_div_pow, ← Int.ofNat_sub low]
  norm_cast

section Histograms

variable {row : ProbRow} {grid : Grid row.bits.length} {lo s width : Nat} (small : lo < 2 ^ 31)
  (jj : Nat)

include small

theorem lane_count (stop off : Nat) :
    ((if laneBin row lo s width stop off = jj then 1 else 0 : Int) -
      if jj = 0 then if !inRange (off < stop) (laneBits row stop off) lo width then 1 else 0 else 0) =
      if off < stop then
        if lo ≤ row.pattern off ∧ row.pattern off < lo + widthOf width ∧
          (row.pattern off - lo) / 2 ^ s = jj then 1 else 0
      else 0 := by
  unfold laneBin laneBits
  by_cases lt : off < stop
  · have finite := pattern_lt row off
    simp only [lt, decide_true, if_true, inRange_eq finite small]
    by_cases within : lo ≤ row.pattern off ∧ row.pattern off < lo + widthOf width
    · simp only [within, and_self, decide_true, if_true, true_and, Bool.not_true, Bool.false_eq_true,
        if_false, ite_self, sub_zero, binOf_eq finite small within.1, Int.natCast_inj]
    · have outside : ¬ (lo ≤ row.pattern off ∧ row.pattern off < lo + widthOf width ∧
          (row.pattern off - lo) / 2 ^ s = jj) := fun holds => within ⟨holds.1, holds.2.1⟩
      simp only [within, decide_false, Bool.false_eq_true, if_false, Bool.not_false, if_true, outside]
      by_cases first : jj = 0
      · simp [first]
      · simp [first]
        omega
  · have out : inRange false (-1082130432) lo width = false := by
      unfold inRange
      simp
    simp only [lt, decide_false, if_false, out, Bool.false_eq_true, Bool.not_false, if_true]
    by_cases first : jj = 0
    · simp [first]
    · simp [first]
      omega

/-- Behind the barrier a bin holds the weight of its entries, on any grid. -/
theorem histogram_eq : histogram row grid lo s width jj =
      binWeight row.bits (fun _ => (1 : Int)) lo (widthOf width) (2 ^ s) jj := by
  unfold histogram binWeight
  rw [← sum_ctas row grid]
  refine congrArg sum (map_congr_left fun cta _ => ?_)
  refine congrArg sum (map_congr_left fun s0 _ => ?_)
  rw [← map_congr_left fun off _ => lane_count small jj (grid.stop cta) off]
  induction blockLanes grid.block s0 with
  | nil => simp
  | cons off lanes ih =>
    rw [map_cons, sum_cons, ← ih, countP_cons, countP_cons]
    by_cases first : jj = 0
    · simp only [first, if_true, decide_eq_true_eq, Int.natCast_add, apply_ite (Nat.cast (R := Int)),
        Int.natCast_one, Int.natCast_zero]
      omega
    · simp only [first, if_false, decide_eq_true_eq, Int.natCast_add,
        apply_ite (Nat.cast (R := Int)), Int.natCast_one, Int.natCast_zero]
      omega

theorem binMasses_eq :
    binMasses row grid lo s width jj = binWeight row.bits value lo (widthOf width) (2 ^ s) jj := by
  unfold binMasses binWeight
  rw [← sum_ctas row grid]
  refine congrArg sum (map_congr_left fun cta _ => ?_)
  refine congrArg sum (map_congr_left fun s0 _ => ?_)
  refine congrArg sum (map_congr_left fun off _ => ?_)
  by_cases lt : off < grid.stop cta
  · have finite := pattern_lt row off
    rw [if_pos lt, decide_eq_true lt, inRange_eq finite small]
    by_cases within : lo ≤ row.pattern off ∧ row.pattern off < lo + widthOf width
    · rw [binOf_eq finite small within.1]
      simp only [within, and_self, decide_true, true_and, Int.natCast_inj]
    · have outside : ¬ (lo ≤ row.pattern off ∧ row.pattern off < lo + widthOf width ∧
          (row.pattern off - lo) / 2 ^ s = jj) := fun holds => within ⟨holds.1, holds.2.1⟩
      simp only [within, decide_false, Bool.false_eq_true, false_and, if_false, outside]
  · have out : inRange false (row.pattern off) lo width = false := by
      unfold inRange
      simp
    rw [if_neg lt, decide_eq_false lt, out]
    simp

end Histograms

/-! ### The last bin -/

theorem foldr_max_spec (b : Int) (values : List Int) : (∀ x ∈ values, x ≤ values.foldr max b) ∧
      (values.foldr max b = b ∨ values.foldr max b ∈ values) := by
  induction values with
  | nil => exact ⟨fun x mem => absurd mem not_mem_nil, Or.inl rfl⟩
  | cons x values ih =>
    obtain ⟨upper, attained⟩ := ih
    rw [foldr_cons]
    constructor
    · intro z mem
      rcases mem_cons.mp mem with rfl | later
      · exact le_max_left _ _
      · exact (upper z later).trans (le_max_right _ _)
    · rcases max_choice x (values.foldr max b) with isFirst | isRest
      · rw [isFirst]
        exact Or.inr mem_cons_self
      · rw [isRest]
        exact attained.imp_right (mem_cons_of_mem _)

section Refine

variable {M : Type} [AddCommGroup M]

theorem cumsum_fromBin (h : Nat → M) {bins jj : Nat} (lt : jj < bins) :
    cumsum h jj + fromBin bins h (jj + 1) = total bins h := by
  obtain ⟨more, rfl⟩ := Nat.exists_eq_add_of_le (show jj + 1 ≤ bins from lt)
  unfold cumsum fromBin total
  rw [@range_add (jj + 1) more, map_append, map_append, sum_append, sum_append, map_map, map_map]
  have none : ((range (jj + 1)).map fun i => if jj + 1 ≤ i then h i else 0).sum = 0 := by
    apply sum_eq_zero
    intro x mem
    obtain ⟨i, isBin, rfl⟩ := mem_map.mp mem
    have pre := mem_range.mp isBin
    exact if_neg (by omega)
  rw [none, zero_add]
  refine congrArg _ (congrArg sum (map_congr_left fun i _ => ?_))
  exact if_pos (Nat.le_add_right _ _)

theorem fromBin_succ (h : Nat → M) {bins jj : Nat} (lt : jj < bins) :
    fromBin bins h jj = h jj + fromBin bins h (jj + 1) := by
  unfold fromBin
  have each : ∀ i, (if jj ≤ i then h i else 0) =
      (if i = jj then h jj else 0) + if jj + 1 ≤ i then h i else 0 := by
    intro i
    rcases lt_trichotomy i jj with less | same | more
    · rw [if_neg (by omega), if_neg (by omega), if_neg (by omega), add_zero]
    · rw [if_pos (by omega), if_pos same, if_neg (by omega), add_zero, same]
    · rw [if_pos (by omega), if_neg (by omega), if_pos (by omega), zero_add]
  simp only [each, sum_map_add, sum_ite_eq_range, if_pos lt]

theorem compared_eq (h : Nat → M) (above : M) {bins jj : Nat} (lt : jj < bins) :
    above + total bins h - cumsum h jj + h jj = above + fromBin bins h jj := by
  rw [← cumsum_fromBin h lt, fromBin_succ h lt]
  abel

theorem behind_eq (h : Nat → M) (above : M) {bins : Nat} (j : Nat) :
    above + total bins h - sumUpTo bins h j = above + fromBin bins h (j + 1) := by
  have split : total bins h = sumUpTo bins h j + fromBin bins h (j + 1) := by
    unfold total sumUpTo fromBin
    rw [← sum_map_add]
    refine congrArg sum (map_congr_left fun i _ => ?_)
    rcases lt_or_ge j i with more | less
    · rw [if_neg (by omega), if_pos (by omega), zero_add]
    · rw [if_pos (by omega), if_neg (by omega), add_zero]
  rw [split]
  abel

variable [LinearOrder M]

theorem lastOk_spec (bins : Nat) (h : Nat → M) (above target : M) :
    (∃ j < bins, lastOk bins h above target = j ∧ target ≤ above + fromBin bins h j ∧
      ∀ i < bins, j < i → above + fromBin bins h i < target) ∨
    lastOk bins h above target = -1 ∧ ∀ i < bins, above + fromBin bins h i < target := by
  unfold lastOk
  have same : ((range bins).map fun jj : Nat =>
      if target ≤ above + total bins h - cumsum h jj + h jj then (jj : Int) else -1) =
      (range bins).map fun jj : Nat =>
        if target ≤ above + fromBin bins h jj then (jj : Int) else -1 := by
    refine map_congr_left fun jj lt => ?_
    rw [compared_eq h above (mem_range.mp lt)]
  rw [same]
  obtain ⟨upper, attained⟩ := foldr_max_spec (-1) ((range bins).map fun jj : Nat =>
    if target ≤ above + fromBin bins h jj then (jj : Int) else -1)
  obtain ⟨last, isLast⟩ : ∃ last, last = ((range bins).map fun jj : Nat =>
    if target ≤ above + fromBin bins h jj then (jj : Int) else -1).foldr max (-1) := ⟨_, rfl⟩
  rw [← isLast] at upper attained ⊢
  have failing : ∀ i < bins, last < (i : Int) → above + fromBin bins h i < target := by
    intro i lt later
    by_contra ok
    have most := upper _ (mem_map.mpr ⟨i, mem_range.mpr lt, rfl⟩)
    rw [if_pos (not_lt.mp ok)] at most
    omega
  have absent : last = -1 → last = -1 ∧ ∀ i < bins, above + fromBin bins h i < target :=
    fun isNone => ⟨isNone, fun i lt => failing i lt (by omega)⟩
  rcases attained with isNone | mem
  · exact Or.inr (absent isNone)
  · obtain ⟨j, lt, isBin⟩ := mem_map.mp mem
    by_cases ok : target ≤ above + fromBin bins h j
    · rw [if_pos ok] at isBin
      exact Or.inl ⟨j, mem_range.mp lt, isBin.symm, ok, fun i isIn later =>
        failing i isIn (by omega)⟩
    · rw [if_neg ok] at isBin
      exact Or.inr (absent isBin.symm)

end Refine

/-! ### One round -/

section Round

variable {M : Type} [AddCommGroup M] [LinearOrder M] [IsOrderedAddMonoid M]
  {entries : List Nat} {weight : Nat → M} (nonneg : ∀ y, 0 ≤ weight y)
  {target above : M} {lo s m bins : Nat}

include nonneg

/-- One round narrows a bracket to one of its bins. -/
theorem bracket_round (finite : ∀ y ∈ entries, y < 0x7F800000)
    (bracket : Bracket entries weight target lo (m * 2 ^ s) above) (reach : m ≤ bins)
    {h : Nat → M} (isBin : h = binWeight entries weight lo (m * 2 ^ s) (2 ^ s)) :
    ∃ j : Nat, lastOk bins h above target = j ∧
      wrap32 (lo + lastOk bins h above target <<< s) = (lo + j * 2 ^ s : Nat) ∧
      Bracket entries weight target (lo + j * 2 ^ s) (2 ^ s)
        (above + total bins h - sumUpTo bins h (lastOk bins h above target)) := by
  subst isBin
  have pos : 0 < 2 ^ s := Nat.two_pow_pos s
  have first := bracket.first pos reach
  have some_ : 0 < m := by
    apply pos_of_ne_zero
    rintro rfl
    obtain ⟨y, -, low, high⟩ := bracket.entry
    omega
  rcases lastOk_spec bins (binWeight entries weight lo (m * 2 ^ s) (2 ^ s)) above target with
    ⟨j, lt, isLast, ok, later⟩ | ⟨-, none⟩
  · have within := bracket.bins_end nonneg pos reach ok
    have last : above + fromBin bins (binWeight entries weight lo (m * 2 ^ s) (2 ^ s)) (j + 1) <
        target := by
      by_contra more
      have next := bracket.bins_end nonneg pos reach (not_lt.mp more)
      exact more (later (j + 1) (by omega) (Nat.lt_succ_self j))
    have next := bracket.next pos reach within ok last
    rw [isLast, behind_eq]
    refine ⟨j, rfl, ?_, next⟩
    obtain ⟨y, mem, low, -⟩ := next.entry
    have small := finite y mem
    have sum : (lo : Int) + (j : Int) <<< s = (lo + j * 2 ^ s : Nat) := by
      rw [Int.shiftLeft_eq, Int.natCast_add, Int.natCast_mul, Int.natCast_pow]
      rfl
    rw [sum]
    exact wrap32_eq (by omega) (by omega)
  · exact absurd (none 0 (by omega)) (not_lt.mpr first)

theorem short_round (short : tailWeight entries weight 0 < target)
    (isBehind : above ≤ tailWeight entries weight (0 + m * 2 ^ s)) (reach : m ≤ bins) (i : Nat) :
    above + fromBin bins (binWeight entries weight 0 (m * 2 ^ s) (2 ^ s)) i < target := by
  have all := tailWeight_bins entries weight 0 (Nat.two_pow_pos s) reach (Nat.zero_le m)
  rw [Nat.zero_mul, Nat.add_zero] at all
  refine lt_of_le_of_lt (add_le_add isBehind (fromBin_anti ?_ (Nat.zero_le i))) ?_
  · exact binWeight_nonneg nonneg
  · rw [all]
    exact short

theorem short_lastOk (short : tailWeight entries weight 0 < target)
    (isBehind : above ≤ tailWeight entries weight (0 + m * 2 ^ s)) (reach : m ≤ bins) :
    lastOk bins (binWeight entries weight 0 (m * 2 ^ s) (2 ^ s)) above target = -1 := by
  rcases lastOk_spec bins (binWeight entries weight 0 (m * 2 ^ s) (2 ^ s)) above target with
    ⟨j, -, -, ok, -⟩ | ⟨isNone, -⟩
  · exact absurd (short_round nonneg short isBehind reach j) (not_lt.mpr ok)
  · exact isNone

end Round

/-! ### The four rounds -/

section Rounds

variable {M : Type} [AddCommGroup M] [LinearOrder M] {entries : List Nat} {weight : Nat → M}
  {target above : M} {lo : Nat}

def Narrows (entries : List Nat) (weight : Nat → M) (target : M)
    (round : Int × M → Nat × Nat → Int × M) : Prop :=
  ∀ (lo m s width : Nat) (above : M), Bracket entries weight target lo (m * 2 ^ s) above →
    m ≤ 256 → widthOf width = m * 2 ^ s → ∃ (next : Nat) (behind : M),
      round (lo, above) (s, width) = ((next : Int), behind) ∧ lo ≤ next ∧
        Bracket entries weight target next (2 ^ s) behind

theorem rounds_narrow {round : Int × M → Nat × Nat → Int × M}
    (narrows : Narrows entries weight target round)
    (bracket : Bracket entries weight target lo (2 ^ 31) above) :
    ∃ (thr : Nat) (behind : M), rounds.foldl round ((lo : Int), above) = ((thr : Int), behind) ∧ lo ≤ thr ∧
      Bracket entries weight target thr 1 behind := by
  obtain ⟨lo1, above1, first, low1, bracket1⟩ := narrows lo 256 23 0 above bracket le_rfl rfl
  obtain ⟨lo2, above2, second, low2, bracket2⟩ :=
    narrows lo1 256 15 (1 <<< 23) above1 bracket1 le_rfl rfl
  obtain ⟨lo3, above3, third, low3, bracket3⟩ :=
    narrows lo2 256 7 (1 <<< 15) above2 bracket2 le_rfl rfl
  obtain ⟨lo4, above4, fourth, low4, bracket4⟩ :=
    narrows lo3 128 0 (1 <<< 7) above3 bracket3 (by decide) rfl
  refine ⟨lo4, above4, ?_, low1.trans (low2.trans (low3.trans low4)), bracket4⟩
  unfold rounds
  rw [foldl_cons, first, foldl_cons, second, foldl_cons, third, foldl_cons, fourth, foldl_nil]

end Rounds

section Kernels

variable (row : ProbRow) (grid : Grid row.bits.length)

theorem bracket_small {M : Type} [AddCommGroup M] [LinearOrder M] {weight : Nat → M} {target above : M}
    {lo width : Nat} (bracket : Bracket row.bits weight target lo width above) : lo < 2 ^ 31 := by
  obtain ⟨y, mem, low, -⟩ := bracket.entry
  have finite := row.finite y mem
  omega

theorem one_nonneg (y : Nat) : (0 : Int) ≤ (fun _ => 1) y := Int.one_nonneg

theorem bitsRound_narrows (target : Int) :
    Narrows row.bits (fun _ => (1 : Int)) target (bitsRound row grid target) := by
  intro lo m s width above bracket reach isWidth
  have isBin : histogram row grid lo s width =
      binWeight row.bits (fun _ => (1 : Int)) lo (m * 2 ^ s) (2 ^ s) := by
    funext jj
    rw [histogram_eq (bracket_small row bracket), isWidth]
  obtain ⟨j, isLast, isLow, next⟩ := bracket_round one_nonneg row.finite bracket reach isBin
  unfold bitsRound
  have found : 0 ≤ lastOk kBins (histogram row grid lo s width) above target := by
    rw [show kBins = 256 from rfl, isLast]
    exact Int.natCast_nonneg j
  rw [if_pos found, show kBins = 256 from rfl, isLow]
  exact ⟨_, _, rfl, Nat.le_add_right _ _, next⟩

theorem value_nonneg (y : Nat) : 0 ≤ value y := by
  unfold value
  positivity

theorem pmassRound_narrows (target : ℚ) :
    Narrows row.bits value target (pmassRound row grid target) := by
  intro lo m s width above bracket reach isWidth
  have isBin : binMasses row grid lo s width = binWeight row.bits value lo (m * 2 ^ s) (2 ^ s) := by
    funext jj
    rw [binMasses_eq (bracket_small row bracket), isWidth]
  obtain ⟨j, isLast, isLow, next⟩ := bracket_round value_nonneg row.finite bracket reach isBin
  unfold pmassRound
  dsimp only
  have found : max (lastOk pmBins (binMasses row grid lo s width) above target) 0 =
      lastOk pmBins (binMasses row grid lo s width) above target := by
    apply max_eq_left
    rw [show pmBins = 256 from rfl, isLast]
    exact Int.natCast_nonneg j
  rw [found, show pmBins = 256 from rfl, isLow]
  exact ⟨_, _, rfl, Nat.le_add_right _ _, next⟩

end Kernels

end FreeToken.Sampling
