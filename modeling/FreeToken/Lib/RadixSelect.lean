/-
**Selecting the largest keys digit by digit.**
-/

import FreeToken.Lib.BestOf
import Mathlib.Data.Prod.Lex

namespace FreeToken

open Finset

section Counts

variable {ι : Type} (s : Finset ι) (key : ι → Nat)

/-- How many keys reach the range `q` of keys that have `b` more bits. -/
def upper (q b : Nat) : Nat := (s.filter fun i => q ≤ key i / 2 ^ b).card

def inside (q b : Nat) : Nat := (s.filter fun i => key i / 2 ^ b = q).card

theorem upper_succ (q b : Nat) : upper s key q b = upper s key (q + 1) b + inside s key q b := by
  classical
  unfold upper inside
  rw [← card_union_of_disjoint]
  · congr 1
    ext i
    rw [mem_union, mem_filter, mem_filter, mem_filter, ← and_or_left]
    refine and_congr_right fun _ => ?_
    omega
  · rw [disjoint_filter]
    intro i _ reaches isInside
    omega

theorem upper_digits (q b r : Nat) : upper s key (q * 2 ^ r) b = upper s key q (b + r) := by
  unfold upper
  congr 1
  ext i
  rw [mem_filter, mem_filter, pow_add, ← Nat.div_div_eq_div_mul,
    Nat.le_div_iff_mul_le (Nat.two_pow_pos r)]

end Counts

/-- **A range that holds the last key selected**: `rem` keys in it are selected, and all above it; where
the keys are too few, it is the lowest range. -/
structure RadixRange {ι : Type} (s : Finset ι) (key : ι → Nat) (k q b rem : Nat) : Prop where
  left : 0 < rem
  total : upper s key (q + 1) b + rem = k
  reach : k ≤ upper s key q b ∨ q = 0
  bounded : q = 0 ∨ ∃ i ∈ s, q ≤ key i / 2 ^ b

/-- **A threshold of a selection**: a key, and a budget for those equal to it. -/
structure Threshold {ι : Type} (s : Finset ι) (key : ι → Nat) (k p ties : Nat) : Prop where
  above : upper s key (p + 1) 0 ≤ k
  budget : min (inside s key p 0) ties = min (inside s key p 0) (k - upper s key (p + 1) 0)
  reach : k ≤ upper s key p 0 ∨ p = 0

section Select

variable {ι : Type} {s : Finset ι} {key : ι → Nat} {k q b r rem : Nat}

/-- All keys are such a range. -/
theorem RadixRange.start (pos : 0 < k) (bits : ∀ i ∈ s, key i < 2 ^ b) :
    RadixRange s key k 0 b k where
  left := pos
  total := by
    have none : upper s key (0 + 1) b = 0 := by
      unfold upper
      rw [card_eq_zero, filter_eq_empty_iff]
      intro i mem
      rw [Nat.div_eq_of_lt (bits i mem)]
      decide
    omega
  reach := Or.inr rfl
  bounded := Or.inl rfl

/-- One digit more gives the next range. -/
theorem RadixRange.next (range : RadixRange s key k q (b + r) rem) {d : Nat}
    (few : upper s key (q * 2 ^ r + d + 1) b < k)
    (least : ∀ e < d, k ≤ upper s key (q * 2 ^ r + e + 1) b) :
    RadixRange s key k (q * 2 ^ r + d) b (k - upper s key (q * 2 ^ r + d + 1) b) where
  left := Nat.sub_pos_of_lt few
  total := Nat.add_sub_cancel' few.le
  reach := by
    cases d with
    | zero =>
      rw [Nat.add_zero, upper_digits]
      refine range.reach.imp_right fun isZero => ?_
      rw [isZero, Nat.zero_mul]
    | succ d => exact Or.inl (least d (Nat.lt_succ_self d))
  bounded := by
    cases d with
    | zero =>
      rw [Nat.add_zero]
      rcases range.bounded with isZero | reaches
      · exact Or.inl (by rw [isZero, Nat.zero_mul])
      · obtain ⟨i, mem, reach⟩ := reaches
        refine Or.inr ⟨i, mem, ?_⟩
        rw [pow_add, ← Nat.div_div_eq_div_mul, Nat.le_div_iff_mul_le (Nat.two_pow_pos r)] at reach
        exact reach
    | succ d =>
      have some_ : 0 < upper s key (q * 2 ^ r + d + 1) b :=
        (Nat.zero_lt_of_lt few).trans_le (least d (Nat.lt_succ_self d))
      obtain ⟨i, mem⟩ := card_pos.mp some_
      obtain ⟨inSet, reach⟩ := mem_filter.mp mem
      exact Or.inr ⟨i, inSet, reach⟩

theorem RadixRange.digit_exists (range : RadixRange s key k q (b + r) rem) :
    upper s key (q * 2 ^ r + (2 ^ r - 1) + 1) b < k := by
  have next : q * 2 ^ r + (2 ^ r - 1) + 1 = (q + 1) * 2 ^ r := by
    have pos := Nat.two_pow_pos r
    rw [Nat.succ_mul]
    omega
  have total := range.total
  have left := range.left
  rw [next, upper_digits]
  omega

/-- The lower end of a range that is selected whole. -/
theorem RadixRange.settled (range : RadixRange s key k q b rem) (whole : rem = inside s key q b) :
    Threshold s key k (q * 2 ^ b) k := by
  have reached : upper s key (q * 2 ^ b) 0 = k := by
    rw [upper_digits, zero_add, upper_succ, ← whole]
    exact range.total
  have split := upper_succ s key (q * 2 ^ b) 0
  exact ⟨by omega, by omega, Or.inl reached.ge⟩

/-- The last range. -/
theorem RadixRange.finished (range : RadixRange s key k q 0 rem) : Threshold s key k q rem := by
  have total := range.total
  refine ⟨by omega, ?_, range.reach⟩
  congr 1
  omega

end Select

/-! ### What is selected -/

section Places

variable {s : Finset Nat} {key : Nat → Nat} {k p ties : Nat}

def byKey (key : Nat → Nat) (i : Nat) : Nat ×ₗ Natᵒᵈ := toLex (key i, OrderDual.toDual i)

theorem byKey_injective : Function.Injective (byKey key) := by
  intro i j same
  have second := congrArg (fun pair => OrderDual.ofDual (ofLex pair).2) same
  exact second

theorem byKey_lt {i j : Nat} : byKey key i < byKey key j ↔ key i < key j ∨ key i = key j ∧ j < i := by
  unfold byKey
  rw [Prod.Lex.toLex_lt_toLex]
  exact Iff.rfl

def equalBefore (s : Finset Nat) (key : Nat → Nat) (p c : Nat) : Nat :=
  (s.filter fun i => i < c ∧ key i = p).card

theorem beating_byKey (c : Nat) :
    beating (byKey key) s c = upper s key (key c + 1) 0 + equalBefore s key (key c) c := by
  unfold beating upper equalBefore
  rw [← card_union_of_disjoint]
  · congr 1
    ext i
    rw [mem_union, mem_filter, mem_filter, mem_filter, ← and_or_left,
      byKey_lt, pow_zero, Nat.div_one]
    refine and_congr_right fun _ => ?_
    omega
  · rw [disjoint_filter]
    rintro i _ more ⟨-, same⟩
    rw [pow_zero, Nat.div_one] at more
    omega

theorem equalBefore_lt {c : Nat} (mem : c ∈ s) :
    equalBefore s key (key c) c < inside s key (key c) 0 := by
  apply card_lt_card
  rw [ssubset_iff_of_subset]
  · exact ⟨c, mem_filter.mpr ⟨mem, by rw [pow_zero, Nat.div_one]⟩,
      fun isBefore => lt_irrefl _ (mem_filter.mp isBefore).2.1⟩
  · intro i isBefore
    obtain ⟨inSet, -, same⟩ := mem_filter.mp isBefore
    exact mem_filter.mpr ⟨inSet, by rw [pow_zero, Nat.div_one, same]⟩

/-- What is selected is the best, a tie going to the smaller place. -/
theorem Threshold.best_iff (threshold : Threshold s key k p ties) (pos : ∀ i ∈ s, 0 < key i)
    {c : Nat} (mem : c ∈ s) :
    c ∈ bestIn (byKey key) s k ↔ p < key c ∨ key c = p ∧ equalBefore s key p c < ties := by
  have above := threshold.above
  rw [mem_bestIn, and_iff_right mem, beating_byKey]
  have anti : ∀ {q q' : Nat}, q ≤ q' → upper s key q' 0 ≤ upper s key q 0 := by
    intro q q' less
    apply card_le_card
    intro i isUpper
    obtain ⟨inSet, reach⟩ := mem_filter.mp isUpper
    exact mem_filter.mpr ⟨inSet, less.trans reach⟩
  rcases Nat.lt_trichotomy p (key c) with more | same | less
  · -- all that beat it are above the threshold, and it is too
    refine iff_of_true ?_ (Or.inl more)
    have split := upper_succ s key (key c) 0
    have self := @equalBefore_lt s key c mem
    have most := anti (show p + 1 ≤ key c from more)
    omega
  · subst same
    have budget := threshold.budget
    have pre := @equalBefore_lt s key c mem
    constructor
    · intro few
      exact Or.inr ⟨rfl, by omega⟩
    · rintro (more | ⟨-, few⟩)
      · exact absurd more (lt_irrefl _)
      · omega
  · refine iff_of_false ?_ (by omega)
    have some_ := pos c mem
    have reached := threshold.reach
    have most := anti (show key c + 1 ≤ p from less)
    omega

end Places

end FreeToken
