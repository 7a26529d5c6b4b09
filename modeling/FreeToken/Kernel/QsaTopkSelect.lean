/-
**The radix select finds the threshold.**

* `residentPrefix_threshold`: what a select over a tile returns; `tiledPrefix_eq`: tiles that are read
  again at each pass make no difference.
-/

import FreeToken.Kernel.QsaTopk
import FreeToken.Lib.RadixSelect

namespace FreeToken.QsaTopk

open List

/-- The live columns of some keys. -/
def liveBelow (keyOf : Nat → BitVec 32) (n : Nat) : Finset Nat :=
  (Finset.range n).filter fun c => keyOf c ≠ 0

/-- Their keys as numbers. -/
def keyAt (keyOf : Nat → BitVec 32) (c : Nat) : Nat := (keyOf c).toNat

section Counts

variable {keyOf : Nat → BitVec 32} {n : Nat}

theorem mem_liveBelow {c : Nat} : c ∈ liveBelow keyOf n ↔ c < n ∧ keyOf c ≠ 0 := by
  rw [liveBelow, Finset.mem_filter, Finset.mem_range]

theorem keyAt_pos : ∀ c ∈ liveBelow keyOf n, 0 < keyAt keyOf c := by
  intro c mem
  have live := (mem_liveBelow.mp mem).2
  rw [Nat.pos_iff_ne_zero]
  intro none
  exact live (BitVec.eq_of_toNat_eq none)

theorem countP_range (P : Nat → Bool) :
    (List.range n).countP P = ((Finset.range n).filter fun c => P c = true).card := by
  induction n with
  | zero => rfl
  | succ n ih =>
    rw [range_succ, countP_append, ih, Finset.range_add_one, Finset.filter_insert, countP_singleton]
    split
    · rw [Finset.card_insert_of_notMem (by simp)]
    · rfl

/-! ### Bits -/

def highMask (b : Nat) : BitVec 32 := BitVec.allOnes 32 <<< b

theorem highMask_next (b : Nat) :
    highMask (b + 5) ||| BitVec.ofNat 32 (bins - 1) <<< b = highMask b := by
  unfold highMask
  apply BitVec.eq_of_getLsbD_eq
  intro i small
  have digit : (bins - 1).testBit (i - b) = decide (i - b < 5) :=
    Nat.testBit_two_pow_sub_one 5 (i - b)
  rw [BitVec.getLsbD_or, BitVec.getLsbD_shiftLeft, BitVec.getLsbD_shiftLeft,
    BitVec.getLsbD_shiftLeft, BitVec.getLsbD_ofNat, digit, BitVec.getLsbD_allOnes,
    BitVec.getLsbD_allOnes]
  simp only [small, decide_true, Bool.true_and]
  by_cases low : i < b
  · simp [low, show i < b + 5 by omega]
  · by_cases next : i < b + 5
    · simp [low, next, show i - b < 32 by omega, show i - b < 5 by omega]
    · simp [low, next, show i - b < 32 by omega, show i - (b + 5) < 32 by omega]

theorem and_highMask {key lower : BitVec 32} {q b : Nat} (isLower : lower.toNat = q * 2 ^ b) :
    key &&& highMask b = lower ↔ key.toNat / 2 ^ b = q := by
  have cut : key &&& highMask b = (key >>> b) <<< b := by
    unfold highMask
    apply BitVec.eq_of_getLsbD_eq
    intro i small
    rw [BitVec.getLsbD_and, BitVec.getLsbD_shiftLeft, BitVec.getLsbD_shiftLeft,
      BitVec.getLsbD_ushiftRight, BitVec.getLsbD_allOnes]
    by_cases low : i < b
    · simp [low]
    · simp [low, small, show i - b < 32 by omega, Nat.add_sub_cancel' (not_lt.mp low)]
  have value : (key &&& highMask b).toNat = key.toNat / 2 ^ b * 2 ^ b := by
    have most : key.toNat / 2 ^ b * 2 ^ b ≤ key.toNat := Nat.div_mul_le_self _ _
    rw [cut, BitVec.toNat_shiftLeft, BitVec.toNat_ushiftRight, Nat.shiftRight_eq_div_pow,
      Nat.shiftLeft_eq, Nat.mod_eq_of_lt (most.trans_lt key.isLt)]
  rw [← BitVec.toNat_inj, value, isLower]
  exact Nat.mul_left_inj (Nat.two_pow_pos b).ne'

theorem or_digit {lower : BitVec 32} {q b d : Nat} (isLower : lower.toNat = q * 2 ^ (b + 5))
    (digit : d < 2 ^ 5) (within : (q * 2 ^ 5 + d) * 2 ^ b < 2 ^ 32) :
    (lower ||| BitVec.ofNat 32 d <<< b).toNat = (q * 2 ^ 5 + d) * 2 ^ b := by
  have split : (q * 2 ^ 5 + d) * 2 ^ b = q * 2 ^ (b + 5) + d * 2 ^ b := by
    rw [Nat.add_mul, Nat.mul_assoc, ← pow_add, Nat.add_comm 5 b]
  have small : d * 2 ^ b < 2 ^ (b + 5) := by
    rw [pow_add, Nat.mul_comm]
    exact Nat.mul_lt_mul_of_pos_left digit (Nat.two_pow_pos b)
  rw [BitVec.toNat_or, BitVec.toNat_shiftLeft, BitVec.toNat_ofNat, isLower,
    Nat.mod_eq_of_lt (show d < 2 ^ 32 by omega), Nat.shiftLeft_eq,
    Nat.mod_eq_of_lt (show d * 2 ^ b < 2 ^ 32 by omega), ← Nat.shiftLeft_eq q,
    ← Nat.shiftLeft_add_eq_or_of_lt small, Nat.shiftLeft_eq, split]

end Counts

/-! ### One pass -/

section Pass

variable {keyOf : Nat → BitVec 32} {n : Nat}

/-- A bin is the number of keys in the range of that digit. -/
theorem histogram_getD {range : KeyRange} {q b d : Nat} (isLower : range.lower.toNat = q * 2 ^ (b + 5))
    (isKeep : range.keep = highMask (b + 5)) (digit : d < bins) :
    (histogram ((List.range n).map keyOf) b range).getD d 0 =
      inside (liveBelow keyOf n) (keyAt keyOf) (q * 2 ^ 5 + d) b := by
  unfold histogram
  rw [getD_eq_getElem _ _ (by rwa [length_map, length_range]), getElem_map,
    getElem_range, countP_map, countP_range]
  unfold inside liveBelow
  rw [Finset.filter_filter]
  congr 1
  apply Finset.filter_congr
  intro c _
  have cut : (keyOf c).toNat / 2 ^ b % 2 ^ 5 = d ↔
      ((keyOf c >>> b) &&& BitVec.ofNat 32 (bins - 1)).toNat = d := by
    have mask : (BitVec.ofNat 32 (bins - 1)).toNat = 2 ^ 5 - 1 := rfl
    rw [BitVec.toNat_and, mask, Nat.and_two_pow_sub_one_eq_mod, BitVec.toNat_ushiftRight,
      Nat.shiftRight_eq_div_pow]
  have parts : (keyOf c).toNat / 2 ^ b = q * 2 ^ 5 + d ↔
      (keyOf c).toNat / 2 ^ (b + 5) = q ∧ (keyOf c).toNat / 2 ^ b % 2 ^ 5 = d := by
    have small : d < 2 ^ 5 := digit
    rw [pow_add, ← Nat.div_div_eq_div_mul]
    have whole := Nat.div_add_mod ((keyOf c).toNat / 2 ^ b) (2 ^ 5)
    have below := Nat.mod_lt ((keyOf c).toNat / 2 ^ b) (Nat.two_pow_pos 5)
    omega
  show decide _ = true ↔ _
  rw [decide_eq_true_iff, isKeep, and_highMask isLower, ← cut, keyAt, parts]

theorem histogram_length (keys : List (BitVec 32)) (shift : Nat) (range : KeyRange) :
    (histogram keys shift range).length = bins := by
  rw [histogram, length_map, length_range]

theorem sum_drop_bins {s : Finset Nat} {key : Nat → Nat} {hist : List Nat} {q b : Nat}
    (length : hist.length = bins)
    (each : ∀ d < bins, hist.getD d 0 = inside s key (q * 2 ^ 5 + d) b) {d : Nat} (digit : d ≤ bins) :
    (hist.drop d).sum + upper s key ((q + 1) * 2 ^ 5) b = upper s key (q * 2 ^ 5 + d) b := by
  obtain ⟨left, isLeft⟩ : ∃ left, left = bins - d := ⟨_, rfl⟩
  induction left generalizing d with
  | zero =>
    obtain rfl : d = bins := by omega
    have whole : q * 2 ^ 5 + bins = (q + 1) * 2 ^ 5 := by
      rw [Nat.succ_mul]
      rfl
    rw [drop_eq_nil_of_le length.le, sum_nil, zero_add, whole]
  | succ left ih =>
    have here : d < hist.length := by omega
    have first : hist[d] = inside s key (q * 2 ^ 5 + d) b := by
      rw [← each d (by omega), getD_eq_getElem _ _ here]
    have rest := @ih (d + 1) (by omega) (by omega)
    have split := upper_succ s key (q * 2 ^ 5 + d) b
    rw [← getElem_cons_drop here, sum_cons, first]
    rw [← add_assoc] at rest
    omega

theorem sum_hit (f : Nat → Nat) {d count : Nat} (within : d < count) :
    ((List.range count).map fun bin => if bin = d then f bin else 0).sum = f d := by
  have zeros : ∀ count ≤ d, ((range count).map fun bin => if bin = d then f bin else 0).sum = 0 := by
    intro count pre
    rw [sum_eq_zero]
    intro value mem
    obtain ⟨bin, isBin, rfl⟩ := mem_map.mp mem
    have less := mem_range.mp isBin
    exact if_neg (by omega)
  obtain ⟨more, rfl⟩ := Nat.exists_eq_add_of_le (Nat.succ_le_of_lt within)
  clear within
  induction more with
  | zero =>
    rw [add_zero, range_succ, map_append, sum_append, zeros d le_rfl]
    simp
  | succ more ih =>
    rw [← add_assoc, range_succ, map_append, sum_append, ih]
    simp [show d.succ + more ≠ d by omega]

theorem least_bin {P : Nat → Bool} {last : Nat} (meets : P last = true) :
    let least := ((List.range (last + 1)).map fun bin => if P bin then bin else last).foldr min last
    least ≤ last ∧ P least = true ∧ ∀ e < least, P e = false := by
  have low : ∀ (values : List Nat), values.foldr min last ≤ last ∧
      (∀ value ∈ values, values.foldr min last ≤ value) ∧
      (values.foldr min last = last ∨ values.foldr min last ∈ values) := by
    intro values
    induction values with
    | nil => exact ⟨le_rfl, nofun, Or.inl rfl⟩
    | cons value values ih =>
      obtain ⟨most, each, attained⟩ := ih
      rw [foldr_cons]
      refine ⟨(min_le_right _ _).trans most, fun other mem => ?_, ?_⟩
      · rcases mem_cons.mp mem with rfl | mem
        · exact min_le_left _ _
        · exact (min_le_right _ _).trans (each other mem)
      · rcases min_choice value (values.foldr min last) with isFirst | isRest
        · rw [isFirst]
          exact Or.inr mem_cons_self
        · rw [isRest]
          exact attained.imp_right (mem_cons_of_mem _)
  intro least
  obtain ⟨most, each, attained⟩ := low ((range (last + 1)).map fun bin =>
    if P bin then bin else last)
  refine ⟨most, ?_, fun e pre => ?_⟩
  · rcases attained with isLast | mem
    · exact (congrArg P isLast).trans meets
    · obtain ⟨bin, -, isBin⟩ := mem_map.mp mem
      change P (foldr min last _) = true
      rw [← isBin]
      split
      · assumption
      · exact meets
  · by_contra holds
    have isEntry := each e (mem_map.mpr ⟨e, mem_range.mpr (by omega), by
      rw [if_pos (Bool.not_eq_false _ ▸ holds)]⟩)
    exact absurd pre (not_lt.mpr isEntry)

/-- **What the passes keep**: the range of the last key selected, or the threshold itself. -/
structure Narrowed (s : Finset Nat) (key : Nat → Nat) (k b : Nat) (range : KeyRange) : Prop where
  settled : range.settled = true → Threshold s key k range.lower.toNat k
  narrowing : range.settled = false → range.keep = highMask b ∧ ∃ q,
    RadixRange s key k q b range.kRem ∧ range.lower.toNat = q * 2 ^ b

/-- **One pass**: the digit of the last key selected. -/
theorem narrow_spec {s : Finset Nat} {key : Nat → Nat} {hist : List Nat} {k q b : Nat}
    {range : KeyRange} (bits : ∀ i ∈ s, key i < 2 ^ 32)
    (isRange : RadixRange s key k q (b + 5) range.kRem)
    (isLower : range.lower.toNat = q * 2 ^ (b + 5)) (isKeep : range.keep = highMask (b + 5))
    (length : hist.length = bins)
    (each : ∀ d < bins, hist.getD d 0 = inside s key (q * 2 ^ 5 + d) b) :
    Narrowed s key k b (narrow hist b range) := by
  have sums : ∀ bin < bins, hist.sum - (hist.take (bin + 1)).sum +
      upper s key ((q + 1) * 2 ^ 5) b = upper s key (q * 2 ^ 5 + bin + 1) b := by
    intro bin isBin
    have drop := @sum_drop_bins s key hist q b length each (bin + 1) isBin
    have split := sum_take_add_sum_drop hist (bin + 1)
    rw [← Nat.add_assoc] at drop
    omega
  have total := isRange.total
  rw [← upper_digits] at total
  have few : ∀ bin < bins, decide (hist.sum - (hist.take (bin + 1)).sum < range.kRem) = true ↔
      upper s key (q * 2 ^ 5 + bin + 1) b < k := by
    intro bin isBin
    have sum := sums bin isBin
    rw [decide_eq_true_iff]
    omega
  obtain ⟨d, isDigit⟩ : ∃ d, d = ((List.range bins).map fun bin =>
      if hist.sum - (hist.take (bin + 1)).sum < range.kRem then bin else bins - 1).foldr min
        (bins - 1) := ⟨_, rfl⟩
  obtain ⟨most, meets, least⟩ : d ≤ bins - 1 ∧ upper s key (q * 2 ^ 5 + d + 1) b < k ∧
      ∀ e < d, k ≤ upper s key (q * 2 ^ 5 + e + 1) b := by
    have found := @least_bin (fun bin => decide (hist.sum - (hist.take (bin + 1)).sum < range.kRem))
      (bins - 1) ((few (bins - 1) (by decide)).mpr isRange.digit_exists)
    simp only [decide_eq_true_eq] at found
    rw [show bins - 1 + 1 = bins from rfl, ← isDigit] at found
    obtain ⟨most, meets, least⟩ := found
    have isBin : d < bins := Nat.lt_of_le_pred (by decide) most
    refine ⟨most, (few d isBin).mp (decide_eq_true meets), fun e pre => ?_⟩
    have fails := least e pre
    rw [decide_eq_false_iff_not] at fails
    exact not_lt.mp fun less => fails (decide_eq_true_iff.mp ((few e (pre.trans isBin)).mpr less))
  have isBin : d < bins := Nat.lt_of_le_pred (by decide) most
  have next := isRange.next meets least
  have rem : range.kRem - ((List.range bins).map fun bin =>
      if bin = d then hist.sum - (hist.take (bin + 1)).sum else 0).sum =
        k - upper s key (q * 2 ^ 5 + d + 1) b := by
    have sum := sums d isBin
    rw [sum_hit (fun bin => hist.sum - (hist.take (bin + 1)).sum) isBin]
    omega
  have within : (q * 2 ^ 5 + d) * 2 ^ b < 2 ^ 32 := by
    rcases next.bounded with isZero | reaches
    · rw [isZero, Nat.zero_mul]
      decide
    · obtain ⟨i, mem, reach⟩ := reaches
      rw [Nat.le_div_iff_mul_le (Nat.two_pow_pos b)] at reach
      exact reach.trans_lt (bits i mem)
  have lower := or_digit isLower isBin within
  have count : ((List.range bins).map fun bin => if bin = d then hist.getD bin 0 else 0).sum =
      inside s key (q * 2 ^ 5 + d) b :=
    (sum_hit (fun bin => hist.getD bin 0) isBin).trans (each d isBin)
  have isNext : narrow hist b range =
      { lower := range.lower ||| BitVec.ofNat 32 d <<< b
        keep := range.keep ||| BitVec.ofNat 32 (bins - 1) <<< b
        kRem := k - upper s key (q * 2 ^ 5 + d + 1) b
        settled := decide (k - upper s key (q * 2 ^ 5 + d + 1) b =
          inside s key (q * 2 ^ 5 + d) b) } := by
    unfold narrow
    dsimp only
    rw [← isDigit, rem, count]
  rw [isNext]
  constructor
  · intro whole
    rw [lower]
    exact next.settled (decide_eq_true_iff.mp whole)
  · intro _
    exact ⟨by rw [isKeep, highMask_next], _, next, lower⟩

end Pass

/-! ### All passes -/

section Passes

variable {keyOf : Nat → BitVec 32} {n k : Nat}

/-- **The select finds the threshold.** -/
theorem radixPrefix_threshold {hist : Nat → KeyRange → List Nat} (pos : 0 < k)
    (isHist : ∀ shift range, hist shift range = histogram ((List.range n).map keyOf) shift range) :
    Threshold (liveBelow keyOf n) (keyAt keyOf) k (radixPrefix hist k).1.toNat
      (radixPrefix hist k).2 := by
  have bits : ∀ i ∈ liveBelow keyOf n, keyAt keyOf i < 2 ^ 32 := fun i _ => (keyOf i).isLt
  have run : ∀ count ≤ passes, Narrowed (liveBelow keyOf n) (keyAt keyOf) k (5 * (passes - count))
      ((range count).foldl (fun range step =>
        let shift := radix * (passes - 1 - step)
        if range.settled then range else narrow (hist shift range) shift range) ⟨0, 0, k, false⟩) := by
    intro count
    induction count with
    | zero =>
      intro _
      refine ⟨fun settled => (Bool.false_ne_true settled).elim, fun _ =>
        ⟨(by decide : (0 : BitVec 32) = highMask 35), 0, ?_, ?_⟩⟩
      · exact RadixRange.start pos fun i mem => (bits i mem).trans (by decide)
      · rw [Nat.zero_mul]
        rfl
    | succ count ih =>
      intro within
      have pre := ih (by omega)
      rw [range_succ, foldl_append]
      dsimp only [foldl_cons, foldl_nil] at pre ⊢
      have shift : radix * (passes - 1 - count) = 5 * (passes - (count + 1)) := by
        unfold radix
        omega
      have place : 5 * (passes - count) = 5 * (passes - (count + 1)) + 5 := by omega
      rw [shift]
      rw [place] at pre
      split
      · rename_i settled
        exact ⟨fun _ => pre.settled settled, fun contrary => by
          rw [settled] at contrary
          cases contrary⟩
      · rename_i narrowing
        obtain ⟨isKeep, q, isRange, isLower⟩ := pre.narrowing (Bool.not_eq_true _ ▸ narrowing)
        refine narrow_spec bits isRange isLower isKeep ?_ fun d digit => ?_
        · rw [isHist, histogram_length]
        · rw [isHist]
          exact histogram_getD isLower isKeep digit
  have final := run passes le_rfl
  unfold radixPrefix
  dsimp only at final ⊢
  obtain ⟨range, isFinal⟩ : ∃ range, range = (List.range passes).foldl (fun range step =>
      if range.settled then range
      else narrow (hist (radix * (passes - 1 - step)) range) (radix * (passes - 1 - step)) range)
        (⟨0, 0, k, false⟩ : KeyRange) := ⟨_, rfl⟩
  rw [← isFinal] at final ⊢
  split
  · rename_i settled
    exact final.settled settled
  · rename_i narrowing
    obtain ⟨-, q, isRange, isLower⟩ := final.narrowing (Bool.not_eq_true _ ▸ narrowing)
    rw [Nat.sub_self, Nat.mul_zero] at isRange isLower
    rw [isLower, pow_zero, Nat.mul_one]
    exact isRange.finished

theorem residentPrefix_threshold (pos : 0 < k) : Threshold (liveBelow keyOf n) (keyAt keyOf) k
      (residentPrefix ((List.range n).map keyOf) k).1.toNat
      (residentPrefix ((List.range n).map keyOf) k).2 :=
  radixPrefix_threshold pos fun _ _ => rfl

theorem range_tiles (tiles blockN : Nat) : List.range ((tiles + 1) * blockN) =
      List.range (tiles * blockN) ++ (List.range blockN).map (tiles * blockN + ·) := by
  rw [Nat.succ_mul, range_add]

theorem tiledPrefix_threshold {blockN tiles : Nat} (pos : 0 < k) :
    Threshold (liveBelow keyOf (tiles * blockN)) (keyAt keyOf) k
      (tiledPrefix (fun t => ((List.range blockN).map (t * blockN + ·)).map keyOf) tiles k).1.toNat
      (tiledPrefix (fun t => ((List.range blockN).map (t * blockN + ·)).map keyOf) tiles k).2 := by
  refine radixPrefix_threshold pos fun shift range => ?_
  have step : ∀ first second : List (BitVec 32), histogram (first ++ second) shift range =
        zipWith (· + ·) (histogram first shift range) (histogram second shift range) := by
    intro first second
    unfold histogram
    rw [zipWith_map, zipWith_self]
    exact map_congr_left fun bin _ => countP_append
  induction tiles with
  | zero =>
    rw [Nat.zero_mul]
    rfl
  | succ tiles ih =>
    rw [range_succ, foldl_append, ih, range_tiles, map_append, step]
    rfl

end Passes

end FreeToken.QsaTopk
