/-
**What the sampling kernels do to a row.**
-/

import FreeToken.Kernel.SamplingDraw

namespace FreeToken.Sampling

open List

/-- The threshold of the top-k stage: the k-th largest entry, or zero in a shorter row. -/
def IsKthLargest (row : ProbRow) (k thr : Int) : Prop :=
  if (row.bits.length : Int) < k then thr = 0
  else ∃ v ∈ row.bits, thr = (v : Int) ∧
    (row.bits.countP (v < ·) : Int) < k ∧ k ≤ row.bits.countP (v ≤ ·)

/-- The threshold of the top-p stage: the largest value from a lower bound on whose mass reaches the
target, an entry of the row. -/
def IsLargestReaching (row : ProbRow) (lo : Int) (target : ℚ) (thr : Int) : Prop :=
  ∃ v ∈ row.bits, thr = (v : Int) ∧ IsGreatest {w : Nat | lo ≤ w ∧ target ≤ row.mass w} v

/-- **What lies behind a threshold**: the entries from it on are kept, they are stored divided by their
mass, and one of them is drawn, the same on every grid. -/
structure KeepsFrom (row : ProbRow) (thr : Int) : Prop where
  kept : ∀ off, keeps (row.pattern off) thr = true ↔ thr ≤ row.pattern off
  renorm : ∀ grid : Grid row.bits.length, Writes (renormStores row grid thr) (renormed row thr)
  draw : ∀ u : ℚ, 0 ≤ u → u < 1 → 0 < row.mass thr → ∃ tok, Crossing row thr (u * row.mass thr) tok ∧
    thr ≤ row.pattern tok ∧ 0 < value (row.pattern tok) ∧
      ∀ grid : Grid row.bits.length, drawStores row grid thr u = [tok]

/-- The top-k kernel, and the top-p kernel after a top-k stage or without it. -/
structure Sampled (row : ProbRow) (k : Int) (p : ℚ) : Prop where
  topk : ∃ thr, (∀ grid : Grid row.bits.length, topkBits row grid k = thr) ∧
    IsKthLargest row k thr ∧ KeepsFrom row thr
  topkTopp : ∃ low thr, (∀ grid : Grid row.bits.length, topkBits row grid k = low ∧
      toppBits row grid (some k) p = thr) ∧
    (0 < row.mass low → IsLargestReaching row low (p * row.mass low) thr) ∧
    (row.mass low = 0 → ∀ off, thr ≤ row.pattern off) ∧ KeepsFrom row thr
  topp : ∃ thr, (∀ grid : Grid row.bits.length, toppBits row grid none p = thr) ∧
    (p ≤ row.mass 0 → IsLargestReaching row 0 p thr) ∧ (row.mass 0 < p → thr = 0) ∧
      KeepsFrom row thr

/-! ### One threshold -/

section Unique

variable {row : ProbRow} {k lo thr other : Int} {target : ℚ}

theorem countP_kth {v w : Nat} (few : (row.bits.countP (v < ·) : Int) < k)
    (reach : k ≤ row.bits.countP (w ≤ ·)) : w ≤ v := by
  by_contra more
  have less : row.bits.countP (w ≤ ·) ≤ row.bits.countP (v < ·) := by
    apply countP_mono_left
    intro y _ reached
    simp only [decide_eq_true_eq] at reached ⊢
    omega
  omega

theorem IsKthLargest.unique (first : IsKthLargest row k thr) (second : IsKthLargest row k other) :
    other = thr := by
  unfold IsKthLargest at first second
  split at first
  · rw [if_pos (by assumption)] at second
    rw [first, second]
  · rw [if_neg (by assumption)] at second
    obtain ⟨v, -, rfl, few, reach⟩ := first
    obtain ⟨w, -, rfl, fewer, reached⟩ := second
    have upper := countP_kth few reached
    have lower := countP_kth fewer reach
    omega

theorem IsLargestReaching.unique (first : IsLargestReaching row lo target thr)
    (second : IsLargestReaching row lo target other) : other = thr := by
  obtain ⟨v, -, rfl, greatest⟩ := first
  obtain ⟨w, -, rfl, alsoGreatest⟩ := second
  rw [alsoGreatest.unique greatest]

end Unique

/-! ### The kernels -/

section Kernels

variable (row : ProbRow) {k : Int} {p : ℚ}

def oneCta : Grid row.bits.length where
  ctas := 1
  chunk := row.bits.length
  block := row.bits.length + 1
  covers := by rw [Nat.one_mul]
  lanes := Nat.succ_pos _

/-- A threshold that the rounds end with keeps the entries from it on. -/
theorem keepsFrom {thr : Int} (comparable : Comparable thr) : KeepsFrom row thr where
  kept := fun off => keeps_iff (pattern_lt row off) comparable
  renorm := fun grid => renormStores_writes row grid comparable
  draw := by
    intro u nonneg below pos
    obtain ⟨tok, crossing⟩ := crossing_exists (mul_nonneg nonneg pos.le)
      (mul_lt_of_lt_one_left pos below)
    obtain ⟨kept, isPos⟩ := crossing.token
    exact ⟨tok, crossing, kept, isPos, fun grid => drawStores_eq row grid comparable crossing rfl⟩

theorem comparable_natCast (v : Nat) : Comparable v := ⟨by omega, Or.inl (Int.natCast_nonneg v)⟩

theorem topkBits_isKth (grid : Grid row.bits.length) (pos : 1 ≤ k) :
    IsKthLargest row k (topkBits row grid k) := by
  unfold IsKthLargest
  split
  · exact topkBits_short row grid pos (by assumption)
  · exact topkBits_kth row grid pos (by omega)

theorem IsKthLargest.natCast {thr : Int} (isKth : IsKthLargest row k thr) : ∃ v : Nat, thr = v := by
  unfold IsKthLargest at isKth
  split at isKth
  · exact ⟨0, isKth⟩
  · obtain ⟨v, -, isThr, -⟩ := isKth
    exact ⟨v, isThr⟩

theorem IsLargestReaching.natCast {lo thr : Int} {target : ℚ}
    (largest : IsLargestReaching row lo target thr) : ∃ v : Nat, thr = v := by
  obtain ⟨v, -, isThr, -⟩ := largest
  exact ⟨v, isThr⟩

theorem kept_zero {thr : Int} (none : row.mass thr = 0) (off : Nat) : row.kept thr off = 0 := by
  rcases Nat.lt_or_ge off row.bits.length with lt | past
  · have upTo := cdf_mono row thr (show off + 1 ≤ row.bits.length from lt)
    have start := cdf_mono row thr (Nat.zero_le off)
    have nonneg := row.kept_nonneg thr off
    have zero : row.cdf thr 0 = 0 := rfl
    have whole : row.cdf thr row.bits.length = 0 := none
    rw [cdf_succ, whole] at upTo
    rw [zero] at start
    linarith
  · unfold ProbRow.kept ProbRow.pattern
    rw [getD_eq_default _ _ past, value_zero, ite_self]

theorem zero_row {v : Nat} (isKth : IsKthLargest row k v) (none : row.mass v = 0) :
    v = 0 ∧ ∀ off, value (row.pattern off) = 0 := by
  have isZero : v = 0 := by
    unfold IsKthLargest at isKth
    split at isKth
    · exact Int.natCast_eq_zero.mp isKth
    · obtain ⟨w, mem, isThr, -⟩ := isKth
      obtain rfl := Int.natCast_inj.mp isThr
      obtain ⟨off, lt, isEntry⟩ := getElem_of_mem mem
      have isPattern : row.pattern off = v := by
        unfold ProbRow.pattern
        rw [getD_eq_getElem _ _ lt, isEntry]
      have kept := kept_zero row none off
      unfold ProbRow.kept at kept
      rw [isPattern, if_pos (le_refl _)] at kept
      by_contra pos
      exact absurd kept (ne_of_gt (value_pos_iff.mpr (pos_of_ne_zero pos)))
  subst isZero
  refine ⟨rfl, fun off => ?_⟩
  have kept := kept_zero row none off
  unfold ProbRow.kept at kept
  rwa [if_pos (show ((0 : Nat) : Int) ≤ row.pattern off by omega)] at kept

variable (grid : Grid row.bits.length)

theorem toppBits_some {v : Nat} (isKth : topkBits row grid k = v) (pos : 0 < p) (atMost : p ≤ 1) :
    (0 < row.mass v → IsLargestReaching row v (p * row.mass v) (toppBits row grid (some k) p)) ∧
      (IsKthLargest row k v → row.mass v = 0 → toppBits row grid (some k) p = -2147483521) := by
  have isTopp : toppBits row grid (some k) p =
      (rounds.foldl (pmassRound row grid (p * row.mass v)) ((v : Int), 0)).1 := by
    unfold toppBits
    dsimp only
    rw [isKth, keptSum_eq row grid (comparable_natCast v)]
  rw [isTopp]
  constructor
  · intro some_
    obtain ⟨w, mem, isThr, greatest⟩ := topp_greatest row grid (mul_pos pos some_)
      (mul_le_of_le_one_left some_.le atMost : p * row.mass v ≤ row.mass v)
    refine ⟨w, mem, isThr, ?_⟩
    simpa only [Nat.cast_le] using greatest
  · intro kth none
    obtain ⟨rfl, zeros⟩ := zero_row row kth none
    rw [none, mul_zero]
    exact topp_zero row grid zeros

theorem toppBits_none (pos : 0 < p) :
    (p ≤ row.mass 0 → IsLargestReaching row 0 p (toppBits row grid none p)) ∧
      (row.mass 0 < p → toppBits row grid none p = 0) := by
  constructor
  · intro reached
    obtain ⟨w, mem, isThr, greatest⟩ := topp_greatest row grid pos
      (show p ≤ row.mass ((0 : Nat) : Int) from reached)
    refine ⟨w, mem, isThr, ?_⟩
    have whole : {w : Nat | (0 : Int) ≤ w ∧ p ≤ row.mass w} = {w : Nat | 0 ≤ w ∧ p ≤ row.mass w} := by
      ext w
      simp
    rw [whole]
    exact greatest
  · exact topp_short row grid

end Kernels

/-- **A row is sampled exactly**, on every grid. -/
theorem sampling_exact (row : ProbRow) {k : Int} {p : ℚ} (someKept : 1 ≤ k) (pos : 0 < p)
    (atMost : p ≤ 1) : Sampled row k p := by
  have kth := fun grid => topkBits_isKth row grid someKept
  obtain ⟨v, isLow⟩ := (kth (oneCta row)).natCast
  have isKth : IsKthLargest row k v := isLow ▸ kth (oneCta row)
  have sameLow : ∀ grid, topkBits row grid k = v := fun grid => isKth.unique (kth grid)
  refine ⟨⟨v, sameLow, isKth, keepsFrom row (comparable_natCast v)⟩, ?_, ?_⟩
  · have cases_ := fun grid => toppBits_some row grid (sameLow grid) pos atMost
    rcases (mass_nonneg row v).eq_or_lt with none | some_
    · refine ⟨v, -2147483521, fun grid => ⟨sameLow grid, (cases_ grid).2 isKth none.symm⟩, ?_, ?_, ?_⟩
      · intro some_
        exact absurd none (ne_of_lt some_)
      · intro _ off
        omega
      · exact keepsFrom row ⟨by decide, Or.inr (by decide)⟩
    · have largest := (cases_ (oneCta row)).1 some_
      obtain ⟨w, isThr⟩ := largest.natCast
      rw [isThr] at largest
      refine ⟨v, w, fun grid => ⟨sameLow grid, largest.unique ((cases_ grid).1 some_)⟩,
        fun _ => largest, fun none => absurd none (ne_of_gt some_), keepsFrom row (comparable_natCast w)⟩
  · have cases_ := fun grid => toppBits_none row grid pos
    rcases le_or_gt p (row.mass 0) with reached | short
    · have largest := (cases_ (oneCta row)).1 reached
      obtain ⟨w, isThr⟩ := largest.natCast
      rw [isThr] at largest
      exact ⟨w, fun grid => largest.unique ((cases_ grid).1 reached), fun _ => largest,
        fun short => absurd reached (not_le.mpr short), keepsFrom row (comparable_natCast w)⟩
    · exact ⟨0, fun grid => (cases_ grid).2 short, fun reached => absurd reached (not_le.mpr short),
        fun _ => rfl, keepsFrom row (comparable_natCast 0)⟩

def quarters : ProbRow := ⟨[0x3E800000, 0x3F400000], by decide⟩

theorem sampling_exact_quarters :
    (1 : Int) ≤ 1 ∧ (0 : ℚ) < 1 / 2 ∧ (1 / 2 : ℚ) ≤ 1 ∧ Sampled quarters 1 (1 / 2) :=
  ⟨by decide, by norm_num, by norm_num,
    sampling_exact quarters (by decide) (by norm_num) (by norm_num)⟩

def zeroRow : ProbRow := ⟨[0], by decide⟩

def quarter : ProbRow := ⟨[0x3E800000], by decide⟩

theorem quarter_mass (w : Nat) : quarter.mass w = if w ≤ 0x3E800000 then 1 / 4 else 0 := by
  have isQuarter : value 0x3E800000 = 1 / 4 := by
    unfold value units
    norm_num
  have isMass : quarter.mass w = quarter.kept w 0 := by
    exact add_zero _
  rw [isMass, ProbRow.kept, show quarter.pattern 0 = 0x3E800000 from rfl, isQuarter]
  exact if_congr Nat.cast_le rfl rfl

/-- **The threshold is not always the largest value whose mass reaches a share of the kept mass.** Without
any mass the rounds end with no value at all; without a top-k stage the share is taken of one. -/
theorem sampling_target_fails : (¬ ∃ v : Nat, toppBits zeroRow (oneCta zeroRow) (some 1) 1 = v) ∧
      ¬ ∃ v : Nat, toppBits quarter (oneCta quarter) none (1 / 2) = v ∧
        IsGreatest {w : Nat | 1 / 2 * quarter.mass 0 ≤ quarter.mass w} v := by
  constructor
  · rintro ⟨v, isThr⟩
    have isKth := topkBits_isKth zeroRow (oneCta zeroRow) (k := 1) le_rfl
    obtain ⟨low, isLow⟩ := isKth.natCast
    rw [isLow] at isKth
    have none : zeroRow.mass low = 0 := by
      show (if (low : Int) ≤ (0 : Nat) then value 0 else 0) + 0 = 0
      rw [value_zero, ite_self, add_zero]
    have wraps := (toppBits_some zeroRow (oneCta zeroRow) isLow one_pos le_rfl).2 isKth none
    omega
  · rintro ⟨v, isThr, -, greatest⟩
    have isZero := (toppBits_none quarter (oneCta quarter) (by norm_num : (0 : ℚ) < 1 / 2)).2
      (by rw [show (0 : Int) = (0 : Nat) from rfl, quarter_mass]; norm_num)
    have reached : 1 / 2 * quarter.mass 0 ≤ quarter.mass (0x3E800000 : Nat) := by
      rw [show (0 : Int) = (0 : Nat) from rfl, quarter_mass, quarter_mass]
      norm_num
    have most := greatest reached
    omega

end FreeToken.Sampling
