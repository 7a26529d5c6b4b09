/-
**A sparse attention does not depend on its splits.**
-/

import FreeToken.Kernel.SparseAttend
import Mathlib.Algebra.Order.BigOperators.Group.Finset

namespace FreeToken

variable {R : Type} [Field R] [LinearOrder R] [IsStrictOrderedRing R] {E : ExpLog R}

/-! ### Sums over columns -/

variable (E) in
def columnRow (g : Gathered R) (d column : Nat) : R := columnWeight E g column * g.row column d

section Columns

variable {g : Gathered R}

theorem columnWeight_nonneg (column : Nat) : 0 ≤ columnWeight E g column := by
  unfold columnWeight
  split
  · exact (E.exp_pos _).le
  · exact le_rfl

theorem rows_of_total {count first : Nat}
    (none : ∑ c ∈ Finset.range count, columnWeight E g (first + c) = 0) (d : Nat) :
    ∑ c ∈ Finset.range count, columnRow E g d (first + c) = 0 := by
  have weightless := (Finset.sum_eq_zero_iff_of_nonneg fun c _ =>
    columnWeight_nonneg (E := E) (g := g) (first + c)).mp none
  refine Finset.sum_eq_zero fun c mem => ?_
  unfold columnRow
  rw [weightless c mem, zero_mul]

theorem sparseSoftmax_eq (bound : Nat) (sinkWeight : R) (d : Nat) :
    (∑ column ∈ Finset.range bound, columnRow E g d column) /
        (sinkWeight + ∑ column ∈ Finset.range bound, columnWeight E g column) =
      sparseSoftmax E g bound sinkWeight d := rfl

end Columns

/-! ### The loop of a program -/

section Loop

variable {g : Gathered R} {blockT : Nat}

theorem sparseTile_holds {bound start : Nat} {st : SoftmaxState R} {total : R} {sums : Nat → R}
    (holds : st.Holds E total sums) (settled : st.Settled) :
    (sparseTile E g blockT bound start st).Holds E
        (total + ∑ c ∈ Finset.range blockT,
          if start + c < bound then columnWeight E g (start + c) else 0)
        (fun d => sums d + ∑ c ∈ Finset.range blockT,
          if start + c < bound then columnRow E g d (start + c) else 0) ∧
      (sparseTile E g blockT bound start st).Settled := by
  have weight : ∀ c, E.weight (if start + c < bound ∧ g.valid (start + c) then
      (g.score (start + c) : WithBot R) else ⊥) =
        if start + c < bound then columnWeight E g (start + c) else 0 := by
    intro c
    rw [E.weight_ite, ite_and]
    rfl
  have row : ∀ c d, (if start + c < bound then columnWeight E g (start + c) else 0) *
      (if start + c < bound ∧ g.valid (start + c) then g.row (start + c) else fun _ => 0) d =
        if start + c < bound then columnRow E g d (start + c) else 0 := by
    intro c d
    unfold columnRow columnWeight
    by_cases lt : start + c < bound
    · rw [if_pos lt, if_pos lt]
      by_cases isValid : g.valid (start + c)
      · rw [if_pos isValid, if_pos ⟨lt, isValid⟩]
      · rw [if_neg isValid, zero_mul, zero_mul]
    · rw [if_neg lt, if_neg lt, zero_mul]
  have grown := @SoftmaxState.absorbGuarded_holds R _ _ _ E st total sums holds settled
    (max st.m ((Finset.range blockT).sup fun c =>
      if start + c < bound ∧ g.valid (start + c) then (g.score (start + c) : WithBot R) else ⊥))
    blockT
    (fun c => if start + c < bound ∧ g.valid (start + c) then (g.score (start + c) : WithBot R)
      else ⊥)
    (fun none => ⟨(max_eq_bot.mp none).1, fun c lt =>
      (Finset.sup_eq_bot_iff _ _).mp (max_eq_bot.mp none).2 c (Finset.mem_range.mpr lt)⟩)
    fun c => if start + c < bound ∧ g.valid (start + c) then g.row (start + c) else fun _ => 0
  simp only [weight, row] at grown
  exact grown

/-- The loop of a program holds the sums of its columns, also of none. -/
theorem sparseLoop_holds (positive : 0 < blockT) (first last : Nat) :
    (sparseLoop E g blockT first last).Holds E
        (∑ c ∈ Finset.range (last - first), columnWeight E g (first + c))
        (fun d => ∑ c ∈ Finset.range (last - first), columnRow E g d (first + c)) ∧
      (sparseLoop E g blockT first last).Settled := by
  -- the columns of a tile beyond the last one weigh nothing
  obtain ⟨masked, isMasked⟩ : ∃ masked : (Nat → R) → Nat → R, ∀ column j, masked column j =
      if j < last - first then column (first + j) else 0 := ⟨_, fun _ _ => rfl⟩
  have tile : ∀ (column : Nat → R) i c,
      (if first + i * blockT + c < last then column (first + i * blockT + c) else 0) =
        masked column (i * blockT + c) := by
    intro column i c
    rw [isMasked, add_assoc]
    by_cases lt : first + (i * blockT + c) < last
    · rw [if_pos lt, if_pos (by omega)]
    · rw [if_neg lt, if_neg (by omega)]
  have looped := @foldl_range (SoftmaxState R)
    (fun st tile => sparseTile E g blockT last (first + tile * blockT) st)
    (fun i st => st.Holds E (∑ j ∈ Finset.range (i * blockT), masked (columnWeight E g) j)
      (fun d => ∑ j ∈ Finset.range (i * blockT), masked (columnRow E g d) j) ∧ st.Settled)
    (cdiv (last - first) blockT) (SoftmaxState.start none) ?_ ?_
  · have within := le_cdiv_mul (last - first) positive
    simp only [isMasked] at looped
    rw [sum_masked _ within] at looped
    simp only [sum_masked _ within] at looped
    exact looped
  · rw [Nat.zero_mul]
    exact ⟨SoftmaxState.start_holds none, SoftmaxState.start_settled none⟩
  · intro i _ st holds
    have grown := @sparseTile_holds R _ _ _ E g blockT last (first + i * blockT) st _ _ holds.1
      holds.2
    simp only [tile] at grown
    simp only [sum_tiles_succ]
    exact grown

end Loop

/-! ### Splits -/

variable (column : Nat → R) {st : SoftmaxState R}

section Splits

theorem splitLse_weight {total : R} {sums : Nat → R}
    (holds : st.Holds E total sums) (nonneg : 0 ≤ total) (weightless : total = 0 → ∀ d, sums d = 0) :
    E.weight (splitLse E st.l st.m) = total ∧
      ∀ d, E.weight (splitLse E st.l st.m) * st.out d = sums d := by
  rcases nonneg.eq_or_lt with none | some
  · have bot : splitLse E st.l st.m = ⊥ := by
      have product := holds.total.trans none.symm
      cases isMax : st.m with
      | bot => rfl
      | coe reference =>
        rw [isMax] at product
        exact if_pos ((mul_eq_zero.mp product).resolve_left (E.exp_pos _).ne')
    rw [bot]
    exact ⟨none, fun d => (zero_mul _).trans (weightless none.symm d).symm⟩
  · obtain ⟨reference, isMax, nonzero, weight, rows⟩ := SoftmaxState.partial_holds holds some
    have lse : splitLse E st.l st.m = ((reference + E.log st.l : R) : WithBot R) := by
      rw [isMax]
      exact if_neg nonzero.ne'
    rw [lse]
    refine ⟨weight, fun d => ?_⟩
    unfold SoftmaxState.out
    rw [if_neg nonzero.ne']
    exact rows d

variable {g : Gathered R} {nActive numSplits blockT : Nat}

def splitSum (nActive numSplits blockT splitId : Nat) : R :=
  let bounds := sparseSplit nActive numSplits blockT splitId
  ∑ c ∈ Finset.range (bounds.2 - bounds.1), column (bounds.1 + c)

theorem splitPartial_weight (positive : 0 < blockT) (splitId : Nat) :
    E.weight (splitPartial E g nActive numSplits blockT splitId).2 =
        splitSum (columnWeight E g) nActive numSplits blockT splitId ∧
      ∀ d, E.weight (splitPartial E g nActive numSplits blockT splitId).2 *
          (splitPartial E g nActive numSplits blockT splitId).1 d =
        splitSum (columnRow E g d) nActive numSplits blockT splitId := by
  obtain ⟨first, last, isSplit⟩ : ∃ first last,
      sparseSplit nActive numSplits blockT splitId = (first, last) := ⟨_, _, rfl⟩
  unfold splitPartial splitSum
  dsimp only
  rw [isSplit]
  have looped : (if first < last then sparseLoop E g blockT first last
      else SoftmaxState.start none) = sparseLoop E g blockT first last := by
    split
    · rfl
    · next empty =>
        unfold sparseLoop
        rw [Nat.sub_eq_zero_of_le (not_lt.mp empty), cdiv, zero_add,
          Nat.div_eq_of_lt (Nat.sub_lt positive one_pos)]
        rfl
  rw [looped]
  exact splitLse_weight (sparseLoop_holds positive first last).1
    (Finset.sum_nonneg fun c _ => columnWeight_nonneg _) rows_of_total

omit [LinearOrder R] [IsStrictOrderedRing R] in
theorem sum_splits (nActive : Nat) (splits : 0 < numSplits)
    (positive : 0 < blockT) :
    ∑ splitId ∈ Finset.range numSplits, splitSum column nActive numSplits blockT splitId =
      ∑ j ∈ Finset.range nActive, column j := by
  obtain ⟨perSplit, isPer⟩ : ∃ perSplit, perSplit =
      cdiv (cdiv nActive numSplits) blockT * blockT := ⟨_, rfl⟩
  have split : ∀ splitId, splitSum column nActive numSplits blockT splitId =
      ∑ c ∈ Finset.range (min (perSplit * (splitId + 1)) nActive - min (perSplit * splitId) nActive),
        column (min (perSplit * splitId) nActive + c) := by
    intro splitId
    unfold splitSum sparseSplit
    dsimp only
    rw [← isPer, Nat.mul_succ]
    rcases Nat.le_total nActive (perSplit * splitId) with past | within
    · rw [min_eq_right past, min_eq_right (by omega), Nat.sub_eq_zero_of_le past, Nat.sub_self]
      rfl
    · rw [min_eq_left within]
  have covered : nActive ≤ perSplit * numSplits := by
    calc nActive ≤ cdiv nActive numSplits * numSplits := le_cdiv_mul _ splits
      _ ≤ perSplit * numSplits := by
          rw [isPer]
          exact Nat.mul_le_mul_right _ (le_cdiv_mul _ positive)
  have start : min (perSplit * 0) nActive = 0 := by rw [Nat.mul_zero, Nat.zero_min]
  have ordered : ∀ s, min (perSplit * s) nActive ≤ min (perSplit * (s + 1)) nActive := fun s =>
    min_le_min_right _ (Nat.mul_le_mul_left _ (Nat.le_succ s))
  simp only [split]
  rw [@sum_pieces R _ column (fun s => min (perSplit * s) nActive) start ordered numSplits,
    min_eq_right covered]

theorem sum_partials (splits : 0 < numSplits) (positive : 0 < blockT) :
    ∑ splitId ∈ Finset.range numSplits,
        E.weight (splitPartial E g nActive numSplits blockT splitId).2 =
      ∑ column ∈ Finset.range nActive, columnWeight E g column ∧
    ∀ d, ∑ splitId ∈ Finset.range numSplits,
        E.weight (splitPartial E g nActive numSplits blockT splitId).2 *
          (splitPartial E g nActive numSplits blockT splitId).1 d =
      ∑ column ∈ Finset.range nActive, columnRow E g d column := by
  refine ⟨?_, fun d => ?_⟩
  · rw [← sum_splits _ nActive splits positive]
    exact Finset.sum_congr rfl fun splitId _ => (splitPartial_weight positive splitId).1
  · rw [← sum_splits _ nActive splits positive]
    exact Finset.sum_congr rfl fun splitId _ => (splitPartial_weight positive splitId).2 d

end Splits

/-! ### The merges -/

namespace Dsv4Attend

variable {call : Dsv4Attend R} {isHip : Bool} {b m h : Nat}

def entries (call : Dsv4Attend R) (b m h : Nat) : Gathered R where
  valid column := 0 ≤ call.topkIdxs b m column
  score column := (∑ i ∈ Finset.range call.dim, call.q b m h i *
    (if column < call.nWindow then call.windowPool (call.topkIdxs b m column).toNat i
      else call.cmpPool (call.topkIdxs b m column).toNat i)) * call.scale
  row column i := if column < call.nWindow then call.windowPool (call.topkIdxs b m column).toNat i
    else call.cmpPool (call.topkIdxs b m column).toNat i

omit [LinearOrder R] [IsStrictOrderedRing R] in
theorem kv_eq (column slot i : Nat) : call.kv isHip column slot i =
      if column < call.nWindow then call.windowPool slot i else call.cmpPool slot i := by
  unfold kv
  cases isHip with
  | true =>
    by_cases inWindow : column < call.nWindow
    · simp only [if_true, if_pos inWindow]
    · simp only [if_true, if_neg inWindow, if_pos inWindow]
  | false => exact apply_ite (fun pool : Nat → Nat → R => pool slot i) _ _ _

omit [LinearOrder R] [IsStrictOrderedRing R] in
theorem gathered_eq : call.gathered isHip b m h = call.entries b m h := by
  unfold gathered entries
  congr 1
  · funext column
    simp only [kv_eq]
  · funext column i
    exact kv_eq column _ i

variable {blockT : Nat}

theorem sparseAttnPaged_eq (positive : 0 < blockT) : call.sparseAttnPaged E isHip blockT b m h =
      sparseSoftmax E (call.entries b m h) (call.nActive b m) (E.exp (call.attnSink h)) := by
  funext d
  obtain ⟨holds, settled⟩ := @sparseLoop_holds R _ _ _ E (call.entries b m h) blockT positive 0
    (call.nActive b m)
  simp only [Nat.sub_zero, Nat.zero_add] at holds
  rw [← sparseSoftmax_eq, ← holds.total, ← holds.sums d, sparseAttnPaged, gathered_eq]
  unfold sinkOut
  split
  · next none =>
      rw [none]
      show 0 = 0 * _ / (_ + 0 * _)
      rw [zero_mul, zero_div]
  · next reference isMax =>
      rw [isMax]
      show _ = E.exp reference * _ / (E.exp (call.attnSink h) + E.exp reference * _)
      have sink : E.exp (call.attnSink h) =
          E.exp reference * E.exp (call.attnSink h - reference) := by
        rw [← E.exp_add, add_sub_cancel]
      rw [sink, ← mul_add, mul_div_mul_left _ _ (E.exp_pos _).ne', add_comm]

theorem sparseAttnSplitk_eq {numSplits : Nat} (positive : 0 < blockT) (splits : 0 < numSplits) :
    call.sparseAttnSplitk E isHip blockT numSplits b m h =
      some (sparseSoftmax E (call.entries b m h) (call.nActive b m) (E.exp (call.attnSink h))) := by
  obtain ⟨part, isPart⟩ : ∃ part : Nat → (Nat → R) × WithBot R, ∀ splitId, part splitId =
      splitPartial E (call.entries b m h) (call.nActive b m) numSplits blockT splitId :=
    ⟨_, fun _ => rfl⟩
  obtain ⟨st, looped, finite, holds⟩ := @foldlM_range (SoftmaxState R)
    (fun st splitId => st.absorb E (max st.m (part splitId).2) 1 (fun _ => (part splitId).2)
      fun _ => (part splitId).1)
    (fun i st => st.m ≠ ⊥ ∧ st.Holds E
      (E.exp (call.attnSink h) + ∑ splitId ∈ Finset.range i, E.weight (part splitId).2)
      fun d => ∑ splitId ∈ Finset.range i, E.weight (part splitId).2 * (part splitId).1 d)
    numSplits (SoftmaxState.start (some (call.attnSink h)))
    ⟨WithBot.coe_ne_bot, by
      have started := SoftmaxState.start_holds (E := E) (some (call.attnSink h))
      simpa using started⟩
    (by
      intro splitId _ st holds
      have above : max st.m (part splitId).2 ≠ ⊥ := fun none => holds.1 (max_eq_bot.mp none).1
      obtain ⟨st', absorbed, holds'⟩ := SoftmaxState.absorb_holds holds.2 above 1
        (fun _ => (part splitId).2) fun _ => (part splitId).1
      refine ⟨st', absorbed, ?_, ?_⟩
      · obtain ⟨reference, isMax⟩ := WithBot.ne_bot_iff_exists.mp above
        rw [← isMax] at absorbed
        rw [← Option.some.inj absorbed]
        exact WithBot.coe_ne_bot
      · simp only [Finset.sum_range_one] at holds'
        simp only [Finset.sum_range_succ, ← add_assoc]
        exact holds')
  simp only [isPart, sum_partials splits positive] at holds
  have heavy : 0 < E.exp (call.attnSink h) + ∑ column ∈ Finset.range (call.nActive b m),
      columnWeight E (call.entries b m h) column :=
    add_pos_of_pos_of_nonneg (E.exp_pos _) (Finset.sum_nonneg fun c _ => columnWeight_nonneg c)
  unfold sparseAttnSplitk
  simp only [gathered_eq, ← isPart]
  rw [looped, Option.bind_eq_bind, Option.bind_some]
  refine congrArg some (funext fun d => ?_)
  have nonzero : st.l ≠ 0 := by
    intro zero
    have total := holds.total
    rw [zero, mul_zero] at total
    exact heavy.ne total
  have out := SoftmaxState.out_eq holds heavy.ne' d
  unfold SoftmaxState.out at out
  rw [if_neg nonzero] at out
  rw [out, sparseSoftmax_eq]

end Dsv4Attend

namespace GlmAttend

variable {call : GlmAttend R} {b m h blockT : Nat}

theorem quotient_eq {total : R} {sums : Nat → R}
    (holds : st.Holds E total sums) (positive : total ≠ 0) :
    quotient st = some fun d => sums d / total := by
  have nonzero : st.l ≠ 0 := by
    intro zero
    exact positive (by rw [← holds.total, zero, mul_zero])
  unfold quotient
  rw [if_neg nonzero]
  refine congrArg some (funext fun d => ?_)
  have out := SoftmaxState.out_eq holds positive d
  unfold SoftmaxState.out at out
  rwa [if_neg nonzero] at out

theorem total_pos {g : Gathered R} {bound : Nat} (some : ∃ column < bound, g.valid column) :
    0 < ∑ column ∈ Finset.range bound, columnWeight E g column := by
  obtain ⟨column, lt, isValid⟩ := some
  refine Finset.sum_pos' (fun c _ => columnWeight_nonneg c)
    ⟨column, Finset.mem_range.mpr lt, ?_⟩
  unfold columnWeight
  rw [if_pos isValid]
  exact E.exp_pos _

theorem glmDsaSparse_eq (positive : 0 < blockT)
    (some : ∃ column < call.nActive b m, (call.gathered b m h).valid column) :
    call.glmDsaSparse E blockT b m h =
      Option.some (sparseSoftmax E (call.gathered b m h) (call.nActive b m) 0) := by
  have holds := (@sparseLoop_holds R _ _ _ E (call.gathered b m h) blockT positive 0
    (call.nActive b m)).1
  simp only [Nat.sub_zero, Nat.zero_add] at holds
  unfold glmDsaSparse
  rw [quotient_eq holds (total_pos some).ne']
  refine congrArg Option.some (funext fun d => ?_)
  rw [← sparseSoftmax_eq, zero_add]

theorem glmDsaSplitk_eq {numSplits : Nat} (positive : 0 < blockT) (splits : 0 < numSplits)
    (some : ∃ column < call.nActive b m, (call.gathered b m h).valid column) :
    call.glmDsaSplitk E blockT numSplits b m h =
      Option.some (sparseSoftmax E (call.gathered b m h) (call.nActive b m) 0) := by
  obtain ⟨part, isPart⟩ : ∃ part : Nat → (Nat → R) × WithBot R, ∀ splitId, part splitId =
      splitPartial E (call.gathered b m h) (call.nActive b m) numSplits blockT splitId :=
    ⟨_, fun _ => rfl⟩
  have looped := @foldl_range (SoftmaxState R)
    (fun st splitId => st.absorbGuarded E (max st.m (part splitId).2) 1
      (fun _ => (part splitId).2) fun _ => (part splitId).1)
    (fun i st => st.Holds E (∑ splitId ∈ Finset.range i, E.weight (part splitId).2)
      (fun d => ∑ splitId ∈ Finset.range i, E.weight (part splitId).2 * (part splitId).1 d) ∧
        st.Settled)
    numSplits (SoftmaxState.start none)
    ⟨SoftmaxState.start_holds none, SoftmaxState.start_settled none⟩
    (by
      intro splitId _ st holds
      have grown := @SoftmaxState.absorbGuarded_holds R _ _ _ E st _ _ holds.1 holds.2
        (max st.m (part splitId).2) 1 (fun _ => (part splitId).2)
        (fun none => ⟨(max_eq_bot.mp none).1, fun _ _ => (max_eq_bot.mp none).2⟩)
        fun _ => (part splitId).1
      simp only [Finset.sum_range_one] at grown
      simp only [Finset.sum_range_succ]
      exact grown)
  have holds := looped.1
  simp only [isPart, sum_partials splits positive] at holds
  unfold glmDsaSplitk
  rw [quotient_eq holds (total_pos some).ne']
  refine congrArg Option.some (funext fun d => ?_)
  rw [← sparseSoftmax_eq, zero_add]

end GlmAttend

namespace QsaAttend

variable {g : Gathered R} {blockN tile : Nat}

/-- **From its sentinel**, a program has met no column, or the largest of them weighs one. -/
def Started (st : SoftmaxState R) : Prop :=
  ∃ reference : R, st.m = reference ∧ sentinel ≤ reference ∧
    ((st.l = 0 ∧ reference = sentinel) ∨ 1 ≤ st.l)

theorem tileStep_started (above : ∀ column, g.valid column → sentinel ≤ g.score column)
    {st : SoftmaxState R} (started : Started st) : Started (tileStep E g blockN tile st) := by
  obtain ⟨reference, isMax, low, met⟩ := started
  obtain ⟨next, isNext, grown, bounds, attained⟩ := max_sup_coe reference
    (fun c => if g.valid (tile * blockN + c) then g.score (tile * blockN + c) else sentinel) blockN
  obtain ⟨term, isTerm⟩ : ∃ term : Nat → R, ∀ c, term c = E.relative next
      (if g.valid (tile * blockN + c) then (g.score (tile * blockN + c) : WithBot R) else ⊥) :=
    ⟨_, fun _ => rfl⟩
  have total : (tileStep E g blockN tile st).l =
      st.l * E.relative next reference + ∑ c ∈ Finset.range blockN, term c := by
    unfold tileStep SoftmaxState.absorbGuarded
    dsimp only
    rw [isMax, isNext]
    simp only [isTerm]
    rfl
  have nonneg : ∀ c ∈ Finset.range blockN, 0 ≤ term c := by
    intro c _
    rw [isTerm]
    exact E.relative_nonneg _ _
  refine ⟨next, by unfold tileStep SoftmaxState.absorbGuarded; rw [isMax]; exact isNext,
    low.trans grown, ?_⟩
  rw [total]
  by_cases best : ∃ c < blockN, g.valid (tile * blockN + c) ∧ g.score (tile * blockN + c) = next
  · obtain ⟨c, lt, isValid, isBest⟩ := best
    have one : term c = 1 := by
      rw [isTerm, if_pos isValid, isBest]
      exact E.relative_self next
    have pre : 0 ≤ st.l := by
      rcases met with none | some
      · exact none.1.ge
      · exact zero_le_one.trans some
    refine Or.inr ?_
    calc 1 = term c := one.symm
      _ ≤ ∑ c ∈ Finset.range blockN, term c := Finset.single_le_sum nonneg (Finset.mem_range.mpr lt)
      _ ≤ st.l * E.relative next reference + ∑ c ∈ Finset.range blockN, term c :=
          le_add_of_nonneg_left (mul_nonneg pre (E.relative_nonneg _ _))
  · -- the maximum stays, for a masked column scores the sentinel
    have same : next = reference := by
      rcases attained with same | found
      · exact same
      · obtain ⟨c, lt, isScore⟩ := found
        by_cases isValid : g.valid (tile * blockN + c)
        · rw [if_pos isValid] at isScore
          exact absurd ⟨c, lt, isValid, isScore⟩ best
        · rw [if_neg isValid] at isScore
          exact le_antisymm (isScore ▸ low) grown
    rw [same, E.relative_self, mul_one]
    rcases met with none | some
    · refine Or.inl ⟨?_, none.2⟩
      rw [none.1, zero_add]
      refine Finset.sum_eq_zero fun c mem => ?_
      have lt := Finset.mem_range.mp mem
      rw [isTerm, if_neg]
      · rfl
      · intro isValid
        have below := bounds c lt
        rw [if_pos isValid] at below
        have low := above _ isValid
        rw [← none.2, ← same] at low
        exact best ⟨c, lt, isValid, le_antisymm below low⟩
    · exact Or.inr (some.trans (le_add_of_nonneg_right (Finset.sum_nonneg nonneg)))

theorem tileStep_holds {total : R} {sums : Nat → R}
    (started : Started st) (holds : st.Holds E total sums) :
    (tileStep E g blockN tile st).Holds E
      (total + ∑ c ∈ Finset.range blockN, columnWeight E g (tile * blockN + c))
      fun d => sums d + ∑ c ∈ Finset.range blockN, columnRow E g d (tile * blockN + c) := by
  obtain ⟨reference, isMax, -, -⟩ := started
  have finite : max st.m ((Finset.range blockN).sup fun c =>
      ((if g.valid (tile * blockN + c) then g.score (tile * blockN + c) else sentinel : R) :
        WithBot R)) ≠ ⊥ := by
    intro none
    rw [isMax] at none
    exact WithBot.coe_ne_bot (max_eq_bot.mp none).1
  have weight : ∀ c, E.weight (if g.valid (tile * blockN + c) then
      (g.score (tile * blockN + c) : WithBot R) else ⊥) =
        columnWeight E g (tile * blockN + c) := fun c => E.weight_ite _ _
  have row : ∀ c d, columnWeight E g (tile * blockN + c) *
      (if g.valid (tile * blockN + c) then g.row (tile * blockN + c) else fun _ => 0) d =
        columnRow E g d (tile * blockN + c) := by
    intro c d
    unfold columnRow columnWeight
    by_cases isValid : g.valid (tile * blockN + c)
    · rw [if_pos isValid, if_pos isValid]
    · rw [if_neg isValid, zero_mul, zero_mul]
  have grown := (@SoftmaxState.absorbGuarded_holds R _ _ _ E st total sums holds
    (fun none => absurd (isMax.symm.trans none) WithBot.coe_ne_bot) _ blockN
    (fun c => if g.valid (tile * blockN + c) then (g.score (tile * blockN + c) : WithBot R) else ⊥)
    (fun none => absurd none finite)
    fun c => if g.valid (tile * blockN + c) then g.row (tile * blockN + c) else fun _ => 0).1
  simp only [weight, row] at grown
  exact grown

theorem partialLse_weight {total : R} {sums : Nat → R}
    (started : Started st) (holds : st.Holds E total sums)
    (weightless : total = 0 → ∀ d, sums d = 0) :
    E.weight (partialLse E st) = total ∧
      ∀ d, E.weight (partialLse E st) * normalized st d = sums d := by
  obtain ⟨reference, isMax, -, none | some⟩ := started
  · have empty : total = 0 := by rw [← holds.total, none.1, mul_zero]
    have bot : partialLse E st = ⊥ := if_neg none.1.not_gt
    rw [bot]
    exact ⟨empty.symm, fun d => (zero_mul _).trans (weightless empty d).symm⟩
  · have positive : 0 < st.l := zero_lt_one.trans_le some
    have large : max st.l (1 / 10 ^ 20) = st.l :=
      max_eq_left ((div_le_one_of_le₀ (one_le_pow₀ (by norm_num)) (by positivity)).trans some)
    have lse : partialLse E st = ((reference + E.log st.l : R) : WithBot R) := by
      unfold partialLse
      rw [if_pos positive, large, isMax]
      rfl
    have weight : E.exp (reference + E.log st.l) = E.weight st.m * st.l := by
      rw [E.exp_add, E.exp_log _ positive, isMax]
      rfl
    rw [lse]
    refine ⟨weight.trans holds.total, fun d => ?_⟩
    show E.exp (reference + E.log st.l) * _ = _
    unfold normalized
    rw [weight, if_pos positive, large, mul_assoc, mul_div_cancel₀ _ positive.ne', holds.sums d]

/-- **The merge** of what the programs hand over, in any larger block. -/
theorem mergeSplitk_eq {numSplits blockSplits : Nat} (within : numSplits ≤ blockSplits)
    (part : Nat → (Nat → R) × WithBot R) (d : Nat) :
    mergeSplitk E numSplits blockSplits part d =
      (∑ s ∈ Finset.range numSplits, E.weight (part s).2 * (part s).1 d) /
        ∑ s ∈ Finset.range numSplits, E.weight (part s).2 := by
  obtain ⟨lseMax, isMax⟩ : ∃ lseMax, ((Finset.range blockSplits).sup fun s =>
      if s < numSplits then (part s).2 else ⊥) = lseMax := ⟨_, rfl⟩
  obtain ⟨weights, isWeight⟩ : ∃ weights : Nat → R, ∀ s, weights s =
      if s < numSplits then E.shifted 0 lseMax (if s < numSplits then (part s).2 else ⊥) else 0 :=
    ⟨_, fun _ => rfl⟩
  have merge : mergeSplitk E numSplits blockSplits part d =
      if 0 < ∑ s ∈ Finset.range blockSplits, weights s then
        (∑ s ∈ Finset.range blockSplits, (if s < numSplits then (part s).1 d else 0) * weights s) /
          ∑ s ∈ Finset.range blockSplits, weights s
      else 0 := by
    unfold mergeSplitk
    dsimp only
    rw [isMax]
    simp only [isWeight]
  rw [merge]
  cases lseMax with
  | bot =>
    have none : ∑ s ∈ Finset.range blockSplits, weights s = 0 :=
      Finset.sum_eq_zero fun s _ => by rw [isWeight]; exact ite_self _
    have weightless : ∑ s ∈ Finset.range numSplits, E.weight (part s).2 = 0 := by
      refine Finset.sum_eq_zero fun s mem => ?_
      have lt := Finset.mem_range.mp mem
      have masked := (Finset.sup_eq_bot_iff _ _).mp isMax s
        (Finset.mem_range.mpr (lt.trans_le within))
      rw [if_pos lt] at masked
      rw [masked]
      rfl
    rw [none, if_neg (lt_irrefl (0 : R)), weightless, div_zero]
  | coe reference =>
    have scaled : ∀ s, E.exp reference * weights s =
        if s < numSplits then E.weight (part s).2 else 0 := by
      intro s
      rw [isWeight]
      by_cases lt : s < numSplits
      · rw [if_pos lt, if_pos lt, if_pos lt]
        exact E.relative_weight _ _
      · rw [if_neg lt, if_neg lt, mul_zero]
    have nonneg : ∀ s ∈ Finset.range blockSplits, 0 ≤ weights s := by
      intro s _
      rw [isWeight]
      by_cases lt : s < numSplits
      · rw [if_pos lt]
        exact E.relative_nonneg _ _
      · rw [if_neg lt]
    have denominator : E.exp reference * ∑ s ∈ Finset.range blockSplits, weights s =
        ∑ s ∈ Finset.range numSplits, E.weight (part s).2 := by
      rw [Finset.mul_sum]
      simp only [scaled]
      exact sum_masked _ within
    have merged : E.exp reference * ∑ s ∈ Finset.range blockSplits,
        (if s < numSplits then (part s).1 d else 0) * weights s =
          ∑ s ∈ Finset.range numSplits, E.weight (part s).2 * (part s).1 d := by
      rw [Finset.mul_sum, ← sum_masked _ within]
      refine Finset.sum_congr rfl fun s _ => ?_
      rw [mul_left_comm, scaled]
      by_cases lt : s < numSplits
      · rw [if_pos lt, if_pos lt, if_pos lt, mul_comm]
      · rw [if_neg lt, if_neg lt, if_neg lt, mul_zero]
    rw [← denominator, ← merged, mul_div_mul_left _ _ (E.exp_pos _).ne']
    rcases (Finset.sum_nonneg nonneg).eq_or_lt with none | some
    · rw [← none, if_neg (lt_irrefl (0 : R)), div_zero]
    · exact if_pos some

variable {call : QsaAttend R} {row kvHead off : Nat}

/-- The entries of a list of indices, in the pages of the request of the row. -/
def entries (call : QsaAttend R) (row kvHead off : Nat) : Gathered R :=
  let request := call.tokenToReq row
  let token := fun column => (call.indices row column).toNat
  let page := fun column => call.blockTable request.toNat (token column / call.pageSize)
  { valid := fun column => column < call.topk ∧ (0 ≤ request ∧ request < call.numRequests) ∧
      0 ≤ call.indices row column ∧ token column / call.pageSize < call.pageTableWidth ∧
      0 ≤ page column ∧ page column < call.numCacheBlocks
    score := fun column => (∑ i ∈ Finset.range call.headDim,
      call.q row (kvHead * call.groupSize + off) i *
        call.kCache (page column).toNat (token column % call.pageSize) kvHead i) * call.scaleLog2
    row := fun column => call.vCache (page column).toNat (token column % call.pageSize) kvHead }

omit [Field R] [LinearOrder R] [IsStrictOrderedRing R] in
theorem physicalPage_eq {column : Nat}
    (request : 0 ≤ call.tokenToReq row ∧ call.tokenToReq row < call.numRequests)
    (token : 0 ≤ call.indices row column)
    (lt : (call.indices row column).toNat / call.pageSize < call.pageTableWidth) :
    call.physicalPage row column = call.blockTable (call.tokenToReq row).toNat
      ((call.indices row column).toNat / call.pageSize) := by
  have safe : call.safeRequest row = (call.tokenToReq row).toNat := by
    unfold safeRequest
    omega
  unfold physicalPage
  dsimp only
  rw [max_eq_left token, if_pos ⟨request, token, lt⟩, safe, min_eq_left (Nat.le_sub_one_of_lt lt)]

omit [LinearOrder R] [IsStrictOrderedRing R] in
theorem gathered_valid (column : Nat) :
    (call.gathered row kvHead off).valid column = (call.entries row kvHead off).valid column := by
  have same : (column < call.topk ∧ 0 ≤ call.physicalPage row column ∧
      call.physicalPage row column < call.numCacheBlocks) ↔
      (column < call.topk ∧ (0 ≤ call.tokenToReq row ∧ call.tokenToReq row < call.numRequests) ∧
        0 ≤ call.indices row column ∧
        (call.indices row column).toNat / call.pageSize < call.pageTableWidth ∧
        0 ≤ call.blockTable (call.tokenToReq row).toNat
          ((call.indices row column).toNat / call.pageSize) ∧
        call.blockTable (call.tokenToReq row).toNat
          ((call.indices row column).toNat / call.pageSize) < call.numCacheBlocks) := by
    constructor
    · intro isValid
      have named : (0 ≤ call.tokenToReq row ∧ call.tokenToReq row < call.numRequests) ∧
          0 ≤ call.indices row column ∧
            (max (call.indices row column) 0).toNat / call.pageSize < call.pageTableWidth := by
        by_contra unnamed
        have page := isValid.2.1
        unfold physicalPage at page
        rw [if_neg unnamed] at page
        omega
      have lt := named.2.2
      rw [max_eq_left named.2.1] at lt
      rw [physicalPage_eq named.1 named.2.1 lt] at isValid
      exact ⟨isValid.1, named.1, named.2.1, lt, isValid.2⟩
    · rintro ⟨isCol, request, token, lt, isPage⟩
      rw [physicalPage_eq request token lt]
      exact ⟨isCol, isPage⟩
  exact decide_eq_decide.mpr same

omit [LinearOrder R] [IsStrictOrderedRing R] in
theorem gathered_entry {column : Nat} (isValid : (call.entries row kvHead off).valid column) :
    (call.gathered row kvHead off).score column = (call.entries row kvHead off).score column ∧
      (call.gathered row kvHead off).row column = (call.entries row kvHead off).row column := by
  obtain ⟨-, request, token, lt, isPage, -⟩ := of_decide_eq_true isValid
  have page := physicalPage_eq request token lt
  have cell : ∀ cache : Nat → Nat → Nat → Nat → R, call.cacheRow cache kvHead row column =
      cache (call.blockTable (call.tokenToReq row).toNat
        ((call.indices row column).toNat / call.pageSize)).toNat
        ((call.indices row column).toNat % call.pageSize) kvHead := by
    intro cache
    unfold cacheRow
    rw [page, max_eq_left isPage, max_eq_left token]
  refine ⟨?_, cell _⟩
  show (∑ i ∈ Finset.range call.headDim, _ * call.cacheRow call.kCache kvHead row column i) * _ = _
  rw [cell]
  rfl

theorem gathered_eq (column : Nat) : columnWeight E (call.gathered row kvHead off) column =
        columnWeight E (call.entries row kvHead off) column ∧
      ∀ d, columnRow E (call.gathered row kvHead off) d column =
        columnRow E (call.entries row kvHead off) d column := by
  unfold columnRow columnWeight
  rw [gathered_valid]
  by_cases isValid : (call.entries row kvHead off).valid column
  · rw [if_pos isValid, if_pos isValid, (gathered_entry isValid).1, (gathered_entry isValid).2]
    exact ⟨rfl, fun _ => rfl⟩
  · rw [if_neg isValid, if_neg isValid]
    exact ⟨rfl, fun d => (zero_mul _).trans (zero_mul _).symm⟩

section Tiles

variable {numSplits : Nat}

def tileSum (blockN tile : Nat) : R := ∑ c ∈ Finset.range blockN, column (tile * blockN + c)

def splitTilesSum (numTiles numSplits blockN splitId : Nat) : R :=
  let bounds := splitTiles numTiles numSplits splitId
  ∑ tile ∈ Finset.range (bounds.2 - bounds.1), tileSum column blockN (bounds.1 + tile)

omit [LinearOrder R] [IsStrictOrderedRing R] in
theorem sum_splitTiles (numTiles : Nat) (splits : 0 < numSplits) :
    ∑ splitId ∈ Finset.range numSplits, splitTilesSum column numTiles numSplits blockN splitId =
      ∑ j ∈ Finset.range (numTiles * blockN), column j := by
  have start : 0 * numTiles / numSplits = 0 := by rw [Nat.zero_mul, Nat.zero_div]
  have ordered : ∀ s, s * numTiles / numSplits ≤ (s + 1) * numTiles / numSplits := fun s =>
    Nat.div_le_div_right (Nat.mul_le_mul_right _ (Nat.le_succ s))
  have tiles : ∀ count, ∑ tile ∈ Finset.range count, tileSum column blockN tile =
      ∑ j ∈ Finset.range (count * blockN), column j := by
    intro count
    induction count with
    | zero => rw [Nat.zero_mul]; rfl
    | succ count ih => rw [Finset.sum_range_succ, ih, sum_tiles_succ]; rfl
  have pieces := @sum_pieces R _ (tileSum column blockN) (fun s => s * numTiles / numSplits) start
    ordered numSplits
  rw [Nat.mul_div_cancel_left _ splits, tiles] at pieces
  exact pieces

theorem splitLoop_holds (above : ∀ column, (call.gathered row kvHead off).valid column →
      sentinel ≤ (call.gathered row kvHead off).score column) (splitId : Nat) :
    Started (call.splitLoop E blockN numSplits row kvHead off splitId) ∧
      (call.splitLoop E blockN numSplits row kvHead off splitId).Holds E
        (splitTilesSum (columnWeight E (call.gathered row kvHead off)) (cdiv call.topk blockN)
          numSplits blockN splitId)
        fun d => splitTilesSum (columnRow E (call.gathered row kvHead off) d)
          (cdiv call.topk blockN) numSplits blockN splitId := by
  obtain ⟨first, last, isSplit⟩ : ∃ first last,
      splitTiles (cdiv call.topk blockN) numSplits splitId = (first, last) := ⟨_, _, rfl⟩
  unfold splitLoop splitTilesSum
  rw [isSplit]
  refine @foldl_range (SoftmaxState R) _
    (fun i st => Started st ∧ st.Holds E
      (∑ tile ∈ Finset.range i,
        tileSum (columnWeight E (call.gathered row kvHead off)) blockN (first + tile))
      fun d => ∑ tile ∈ Finset.range i,
        tileSum (columnRow E (call.gathered row kvHead off) d) blockN (first + tile))
    (last - first) _ ⟨⟨sentinel, rfl, le_rfl, Or.inl ⟨rfl, rfl⟩⟩, mul_zero _, fun _ => mul_zero _⟩ ?_
  intro tile _ st holds
  refine ⟨tileStep_started above holds.1, ?_⟩
  simp only [Finset.sum_range_succ]
  exact tileStep_holds holds.1 holds.2

end Tiles

theorem sum_partialLse {numSplits : Nat} (positive : 0 < blockN) (splits : 0 < numSplits)
    (above : ∀ column, (call.gathered row kvHead off).valid column →
      sentinel ≤ (call.gathered row kvHead off).score column) :
    ∑ splitId ∈ Finset.range numSplits,
        E.weight (partialLse E (call.splitLoop E blockN numSplits row kvHead off splitId)) =
      ∑ column ∈ Finset.range call.topk, columnWeight E (call.entries row kvHead off) column ∧
    ∀ d, ∑ splitId ∈ Finset.range numSplits,
        E.weight (partialLse E (call.splitLoop E blockN numSplits row kvHead off splitId)) *
          normalized (call.splitLoop E blockN numSplits row kvHead off splitId) d =
      ∑ column ∈ Finset.range call.topk, columnRow E (call.entries row kvHead off) d column := by
  -- the columns beyond the list are masked out
  have beyond : ∀ column, columnWeight E (call.entries row kvHead off) column =
      if column < call.topk then columnWeight E (call.entries row kvHead off) column else 0 := by
    intro column
    by_cases isCol : column < call.topk
    · rw [if_pos isCol]
    · rw [if_neg isCol]
      exact if_neg fun isValid => isCol (of_decide_eq_true isValid).1
  have beyondRow : ∀ d column, columnRow E (call.entries row kvHead off) d column =
      if column < call.topk then columnRow E (call.entries row kvHead off) d column else 0 := by
    intro d column
    by_cases isCol : column < call.topk
    · rw [if_pos isCol]
    · rw [if_neg isCol]
      unfold columnRow
      rw [beyond, if_neg isCol, zero_mul]
  have whole := le_cdiv_mul call.topk positive
  have part := fun splitId => partialLse_weight
    (@splitLoop_holds R _ _ _ E blockN call row kvHead off numSplits above splitId).1
    (splitLoop_holds above splitId).2 fun none d => by
      have weightless := (Finset.sum_eq_zero_iff_of_nonneg fun tile _ =>
        Finset.sum_nonneg fun c _ => columnWeight_nonneg _).mp none
      exact Finset.sum_eq_zero fun tile mem => rows_of_total (weightless tile mem) d
  refine ⟨?_, fun d => ?_⟩
  · rw [Finset.sum_congr rfl fun splitId _ => (part splitId).1, sum_splitTiles _ _ splits]
    simp only [(gathered_eq _).1]
    rw [Finset.sum_congr rfl fun column _ => beyond column, sum_masked _ whole]
  · rw [Finset.sum_congr rfl fun splitId _ => (part splitId).2 d, sum_splitTiles _ _ splits]
    simp only [(gathered_eq _).2]
    rw [Finset.sum_congr rfl fun column _ => beyondRow d column, sum_masked _ whole]

theorem sparsePaged_eq (positive : 0 < blockN)
    (above : ∀ column, (call.gathered row kvHead off).valid column →
      sentinel ≤ (call.gathered row kvHead off).score column) :
    call.sparsePaged E blockN row kvHead off =
      sparseSoftmax E (call.entries row kvHead off) call.topk 0 := by
  funext d
  obtain ⟨weight, rows⟩ := @sum_partialLse R _ _ _ E blockN call row kvHead off 1 positive
    one_pos above
  simp only [Finset.sum_range_one] at weight rows
  rw [← sparseSoftmax_eq, zero_add, ← weight, ← rows d]
  unfold sparsePaged
  obtain ⟨started, -⟩ := @splitLoop_holds R _ _ _ E blockN call row kvHead off 1 above 0
  obtain ⟨reference, isMax, -, none | some⟩ := started
  · have empty : normalized (call.splitLoop E blockN 1 row kvHead off 0) d = 0 :=
      if_neg none.1.not_gt
    rw [empty, mul_zero, zero_div]
  · have positive : 0 < (call.splitLoop E blockN 1 row kvHead off 0).l := zero_lt_one.trans_le some
    have heavy : E.weight (partialLse E (call.splitLoop E blockN 1 row kvHead off 0)) ≠ 0 := by
      unfold partialLse
      rw [if_pos positive, isMax]
      exact (E.exp_pos _).ne'
    rw [mul_div_cancel_left₀ _ heavy]

/-- The splits, merged. -/
theorem sparsePagedSplitk_eq {numSplits blockSplits : Nat} (positive : 0 < blockN)
    (splits : 0 < numSplits) (within : numSplits ≤ blockSplits)
    (above : ∀ column, (call.gathered row kvHead off).valid column →
      sentinel ≤ (call.gathered row kvHead off).score column) :
    call.sparsePagedSplitk E blockN numSplits blockSplits row kvHead off =
      sparseSoftmax E (call.entries row kvHead off) call.topk 0 := by
  funext d
  obtain ⟨weight, rows⟩ := @sum_partialLse R _ _ _ E blockN call row kvHead off numSplits positive
    splits above
  unfold sparsePagedSplitk
  rw [mergeSplitk_eq within]
  rw [weight, rows d, ← sparseSoftmax_eq, zero_add]

end QsaAttend

end FreeToken
