/-
**A softmax in pieces.**
-/

import FreeToken.Lib.PartSums
import Mathlib.Algebra.BigOperators.Field
import Mathlib.Algebra.Order.Field.Basic
import Mathlib.Tactic.Ring

namespace FreeToken

open List Finset

/-- An exponential over an ordered field, and its logarithm; a score may be minus infinity, whose
exponential is zero. -/
structure ExpLog (R : Type) [Field R] [LinearOrder R] [IsStrictOrderedRing R] where
  exp : R → R
  log : R → R
  exp_add : ∀ a b, exp (a + b) = exp a * exp b
  exp_pos : ∀ a, 0 < exp a
  exp_log : ∀ a, 0 < a → exp (log a) = a

variable {R : Type} [Field R] [LinearOrder R] [IsStrictOrderedRing R] (E : ExpLog R) (reference : R)

namespace ExpLog

def weight : WithBot R → R
  | ⊥ => 0
  | (score : R) => E.exp score

def relative : WithBot R → R
  | ⊥ => 0
  | (score : R) => E.exp (score - reference)

/-- The exponential of a score, relative to a reference that may be minus infinity; what stands for
it then is given. -/
def shifted (guard : R) (reference score : WithBot R) : R :=
  match reference with
  | ⊥ => guard
  | (reference : R) => E.relative reference score

theorem relative_weight (score : WithBot R) :
    E.exp reference * E.relative reference score = E.weight score := by
  cases score with
  | bot => exact mul_zero _
  | coe score =>
    show E.exp reference * E.exp (score - reference) = E.exp score
    rw [← E.exp_add, add_sub_cancel]

theorem exp_zero : E.exp 0 = 1 := by
  have double := E.exp_add 0 0
  rw [add_zero] at double
  exact (mul_eq_left₀ (E.exp_pos 0).ne').mp double.symm

theorem relative_nonneg (score : WithBot R) : 0 ≤ E.relative reference score := by
  cases score with
  | bot => exact le_rfl
  | coe score => exact (E.exp_pos _).le

theorem relative_self : E.relative reference reference = 1 := by
  show E.exp (reference - reference) = 1
  rw [sub_self, exp_zero]

theorem weight_ite (condition : Prop) [Decidable condition] (score : R) :
    E.weight (if condition then (score : WithBot R) else ⊥) =
      if condition then E.exp score else 0 := by
  split <;> rfl

end ExpLog

omit [Field R] [IsStrictOrderedRing R] in
theorem max_sup_coe (scores : Nat → R) (cols : Nat) :
    ∃ next : R, max (reference : WithBot R) ((Finset.range cols).sup fun c =>
        (scores c : WithBot R)) = next ∧ reference ≤ next ∧ (∀ c < cols, scores c ≤ next) ∧
      (next = reference ∨ ∃ c < cols, scores c = next) := by
  induction cols with
  | zero => exact ⟨reference, max_eq_left bot_le, le_rfl, fun c lt => absurd lt (by omega),
      Or.inl rfl⟩
  | succ cols ih =>
    obtain ⟨next, isMax, above, bounds, attained⟩ := ih
    refine ⟨max (scores cols) next, ?_, above.trans (le_max_right _ _), ?_, ?_⟩
    · rw [range_add_one, sup_insert, WithBot.coe_max, ← isMax]
      exact max_left_comm _ _ _
    · intro c lt
      rcases Nat.lt_succ_iff_lt_or_eq.mp lt with pre | rfl
      · exact (bounds c pre).trans (le_max_right _ _)
      · exact le_max_left _ _
    · rcases le_total (scores cols) next with below | beyond
      · rw [max_eq_right below]
        refine attained.imp id fun found => ?_
        obtain ⟨c, lt, isNext⟩ := found
        exact ⟨c, Nat.lt_succ_of_lt lt, isNext⟩
      · rw [max_eq_left beyond]
        exact Or.inr ⟨cols, Nat.lt_succ_self _, rfl⟩

/-- The maximum, the sum of the weights and the weighted sum of the rows, both relative to the
maximum. -/
structure SoftmaxState (R : Type) where
  m : WithBot R
  l : R
  acc : Nat → R

namespace SoftmaxState

def start (sink : Option R) : SoftmaxState R :=
  match sink with
  | none => { m := ⊥, l := 0, acc := fun _ => 0 }
  | some score => { m := score, l := 1, acc := fun _ => 0 }

/-- Some columns, relative to the maximum `mNew`. Without a finite one, the exponential of
`-inf - -inf` is no number. -/
def absorb (st : SoftmaxState R) (mNew : WithBot R) (cols : Nat) (scores : Nat → WithBot R)
    (rows : Nat → Nat → R) : Option (SoftmaxState R) :=
  match mNew with
  | ⊥ => none
  | (reference : R) =>
      let alpha := E.relative reference st.m
      let p := fun c => E.relative reference (scores c)
      some
        { m := reference
          l := st.l * alpha + ∑ c ∈ Finset.range cols, p c
          acc := fun d => st.acc d * alpha + ∑ c ∈ Finset.range cols, p c * rows c d }

/-- `where(l == 0, 0, acc / l)` -/
def out (st : SoftmaxState R) (d : Nat) : R := if st.l = 0 then 0 else st.acc d / st.l

/-- The sums that a state stands for. -/
structure Holds (st : SoftmaxState R) (total : R) (sums : Nat → R) : Prop where
  total : E.weight st.m * st.l = total
  sums : ∀ d, E.weight st.m * st.acc d = sums d

variable {E} {st : SoftmaxState R} {total : R} {sums : Nat → R}

theorem start_holds (sink : Option R) :
    (start sink).Holds E ((sink.map E.exp).getD 0) fun _ => 0 := by
  cases sink with
  | none => exact ⟨mul_zero _, fun _ => mul_zero _⟩
  | some score => exact ⟨mul_one _, fun _ => mul_zero _⟩

/-- **Whatever the new reference is, the sums grow by those of the columns**. -/
theorem absorb_holds (holds : st.Holds E total sums) {mNew : WithBot R} (finite : mNew ≠ ⊥)
    (cols : Nat) (scores : Nat → WithBot R) (rows : Nat → Nat → R) :
    ∃ st', st.absorb E mNew cols scores rows = some st' ∧
      st'.Holds E (total + ∑ c ∈ Finset.range cols, E.weight (scores c))
        fun d => sums d + ∑ c ∈ Finset.range cols, E.weight (scores c) * rows c d := by
  obtain ⟨reference, rfl⟩ := WithBot.ne_bot_iff_exists.mp finite
  refine ⟨_, rfl, ⟨?_, fun d => ?_⟩⟩
  · calc E.exp reference * (st.l * E.relative reference st.m +
            ∑ c ∈ Finset.range cols, E.relative reference (scores c))
        = (E.exp reference * E.relative reference st.m) * st.l +
            ∑ c ∈ Finset.range cols, E.exp reference * E.relative reference (scores c) := by
          rw [mul_add, mul_sum]
          ring
      _ = total + ∑ c ∈ Finset.range cols, E.weight (scores c) := by
          rw [E.relative_weight, holds.total]
          simp only [E.relative_weight]
  · calc E.exp reference * (st.acc d * E.relative reference st.m +
            ∑ c ∈ Finset.range cols, E.relative reference (scores c) * rows c d)
        = (E.exp reference * E.relative reference st.m) * st.acc d + ∑ c ∈ Finset.range cols,
              E.exp reference * E.relative reference (scores c) * rows c d := by
          rw [mul_add, mul_sum]
          simp only [mul_assoc]
          ring
      _ = sums d + ∑ c ∈ Finset.range cols, E.weight (scores c) * rows c d := by
          rw [E.relative_weight, holds.sums]
          simp only [E.relative_weight]

/-- Some columns, relative to a maximum that is minus infinity while all columns are masked out; the
state then stays as it is. -/
def absorbGuarded (E : ExpLog R) (st : SoftmaxState R) (mNew : WithBot R) (cols : Nat)
    (scores : Nat → WithBot R) (rows : Nat → Nat → R) : SoftmaxState R :=
  let alpha := E.shifted 1 mNew st.m
  let p := fun c => E.shifted 0 mNew (scores c)
  { m := mNew
    l := st.l * alpha + ∑ c ∈ Finset.range cols, p c
    acc := fun d => st.acc d * alpha + ∑ c ∈ Finset.range cols, p c * rows c d }

def Settled (st : SoftmaxState R) : Prop := st.m = ⊥ → st.l = 0 ∧ ∀ d, st.acc d = 0

omit [LinearOrder R] [IsStrictOrderedRing R] in
theorem start_settled (sink : Option R) : (start sink).Settled := by
  intro none
  cases sink with
  | none => exact ⟨rfl, fun _ => rfl⟩
  | some score => exact absurd none WithBot.coe_ne_bot

theorem absorbGuarded_holds (holds : st.Holds E total sums) (settled : st.Settled)
    {mNew : WithBot R} {cols : Nat} {scores : Nat → WithBot R}
    (above : mNew = ⊥ → st.m = ⊥ ∧ ∀ c < cols, scores c = ⊥) (rows : Nat → Nat → R) :
    (st.absorbGuarded E mNew cols scores rows).Holds E
        (total + ∑ c ∈ Finset.range cols, E.weight (scores c))
        (fun d => sums d + ∑ c ∈ Finset.range cols, E.weight (scores c) * rows c d) ∧
      (st.absorbGuarded E mNew cols scores rows).Settled := by
  cases mNew with
  | bot =>
    obtain ⟨none, masked⟩ := above rfl
    obtain ⟨noTotal, noRows⟩ := settled none
    have weights : ∀ c ∈ Finset.range cols, E.weight (scores c) = 0 := by
      intro c mem
      rw [masked c (Finset.mem_range.mp mem)]
      rfl
    have noSums : ∀ d, sums d = 0 := fun d => by rw [← holds.sums d, noRows d, mul_zero]
    refine ⟨⟨?_, fun d => ?_⟩, fun _ => ⟨?_, fun d => ?_⟩⟩
    · rw [Finset.sum_eq_zero weights, ← holds.total, noTotal, mul_zero, add_zero]
      exact zero_mul _
    · rw [Finset.sum_eq_zero fun c mem => by rw [weights c mem, zero_mul], noSums d, add_zero]
      exact zero_mul _
    · show st.l * 1 + ∑ c ∈ Finset.range cols, (0 : R) = 0
      rw [noTotal, zero_mul, sum_const_zero, add_zero]
    · show st.acc d * 1 + ∑ c ∈ Finset.range cols, (0 : R) * rows c d = 0
      rw [noRows d, zero_mul]
      simp only [zero_mul, sum_const_zero, add_zero]
  | coe reference =>
    obtain ⟨st', absorbed, holds'⟩ := absorb_holds holds (WithBot.coe_ne_bot (a := reference))
      cols scores rows
    rw [← Option.some.inj absorbed] at holds'
    exact ⟨holds', fun none => absurd none WithBot.coe_ne_bot⟩

/-- The quotient that a state ends with. -/
theorem out_eq (holds : st.Holds E total sums) (pos : total ≠ 0) (d : Nat) :
    st.out d = sums d / total := by
  have weighty : E.weight st.m ≠ 0 := by
    intro zero
    exact pos (by rw [← holds.total, zero, zero_mul])
  have nonzero : st.l ≠ 0 := by
    intro zero
    exact pos (by rw [← holds.total, zero, mul_zero])
  unfold out
  rw [if_neg nonzero, ← holds.sums d, ← holds.total, mul_div_mul_left _ _ weighty]

/-- What a part hands over, as one column. -/
theorem partial_holds (holds : st.Holds E total sums) (pos : 0 < total) :
    ∃ reference : R, st.m = reference ∧ 0 < st.l ∧ E.exp (reference + E.log st.l) = total ∧
      ∀ d, E.exp (reference + E.log st.l) * (st.acc d / st.l) = sums d := by
  have finite : st.m ≠ ⊥ := by
    intro none
    have := holds.total
    rw [none] at this
    exact absurd ((zero_mul _).symm.trans this) pos.ne
  obtain ⟨reference, isMax⟩ := WithBot.ne_bot_iff_exists.mp finite
  have sum : E.exp reference * st.l = total := by
    have := holds.total
    rwa [← isMax] at this
  have nonzero : 0 < st.l := by
    by_contra notPos
    have nonpos := mul_nonpos_of_nonneg_of_nonpos (E.exp_pos reference).le (not_lt.mp notPos)
    rw [sum] at nonpos
    exact absurd pos (not_lt.mpr nonpos)
  refine ⟨reference, isMax.symm, nonzero, ?_, fun d => ?_⟩
  · rw [E.exp_add, E.exp_log _ nonzero, sum]
  · have := holds.sums d
    rw [← isMax] at this
    rw [E.exp_add, E.exp_log _ nonzero, mul_assoc, mul_div_cancel₀ _ nonzero.ne']
    exact this

end SoftmaxState

/-! ### Loops over tiles -/

theorem foldl_range {σ : Type} {step : σ → Nat → σ} {P : Nat → σ → Prop} {count : Nat} {s : σ}
    (start : P 0 s) (keeps : ∀ i < count, ∀ s, P i s → P (i + 1) (step s i)) :
    P count ((List.range count).foldl step s) := by
  induction count with
  | zero => exact start
  | succ count ih =>
    rw [range_succ, foldl_append]
    exact keeps count (Nat.lt_succ_self _) _ (ih fun i lt => keeps i (Nat.lt_succ_of_lt lt))

theorem foldlM_range {σ : Type} {step : σ → Nat → Option σ} {P : Nat → σ → Prop} {count : Nat}
    {s : σ} (start : P 0 s)
    (keeps : ∀ i < count, ∀ s, P i s → ∃ next, step s i = some next ∧ P (i + 1) next) :
    ∃ final, (List.range count).foldlM step s = some final ∧ P count final := by
  induction count with
  | zero => exact ⟨s, rfl, start⟩
  | succ count ih =>
    obtain ⟨middle, passed, holds⟩ := ih fun i lt => keeps i (Nat.lt_succ_of_lt lt)
    obtain ⟨final, last, done⟩ := keeps count (Nat.lt_succ_self _) middle holds
    refine ⟨final, ?_, done⟩
    rw [range_succ, foldlM_append, passed]
    show foldlM step middle [count] = _
    rw [foldlM_cons, last]
    rfl

omit [LinearOrder R] [IsStrictOrderedRing R] in
theorem sum_tiles_succ (col : Nat → R) (width i : Nat) :
    ∑ j ∈ Finset.range ((i + 1) * width), col j = ∑ j ∈ Finset.range (i * width), col j +
        ∑ c ∈ Finset.range width, col (i * width + c) := by
  rw [Nat.succ_mul, sum_range_add]

omit [LinearOrder R] [IsStrictOrderedRing R] in
theorem sum_pieces (col : Nat → R) {bound : Nat → Nat} (start : bound 0 = 0)
    (ordered : ∀ i, bound i ≤ bound (i + 1)) (count : Nat) :
    ∑ i ∈ Finset.range count, ∑ c ∈ Finset.range (bound (i + 1) - bound i), col (bound i + c) =
      ∑ j ∈ Finset.range (bound count), col j := by
  induction count with
  | zero => rw [start]; rfl
  | succ count ih =>
    obtain ⟨more, grown⟩ := Nat.exists_eq_add_of_le (ordered count)
    rw [Finset.sum_range_succ, ih, grown, Nat.add_sub_cancel_left, sum_range_add]

end FreeToken
