/-
**The draw of a token from the kept entries.**
-/

import FreeToken.Kernel.SamplingThresholds
import FreeToken.Lib.IndexCopy
import Mathlib.Tactic.Linarith

namespace FreeToken.Sampling

open List

/-! ### The token -/

/-- **The token whose interval of the inverse distribution holds the target.** -/
structure Crossing (row : ProbRow) (thr : Int) (tgt : ℚ) (tok : Nat) : Prop where
  inside : tok < row.bits.length
  from_ : row.cdf thr tok ≤ tgt
  below : tgt < row.cdf thr (tok + 1)

section Token

variable (row : ProbRow) (thr : Int)

theorem cdf_succ (n : Nat) : row.cdf thr (n + 1) = row.cdf thr n + row.kept thr n := by
  unfold ProbRow.cdf
  rw [range_succ, map_append, sum_append, map_singleton, sum_singleton]

theorem cdf_mono : Monotone (row.cdf thr) := by
  apply monotone_nat_of_le_succ
  intro n
  rw [cdf_succ]
  exact le_add_of_nonneg_right (row.kept_nonneg thr n)

variable {row thr} {tgt : ℚ} {tok : Nat}

/-- From the crossing on a mass is above the target. -/
theorem Crossing.crossing_lt (crossing : Crossing row thr tgt tok) (n : Nat) :
    tgt < row.cdf thr n ↔ tok < n := by
  constructor
  · intro above
    by_contra pre
    have less := cdf_mono row thr (not_lt.mp pre)
    exact absurd (lt_of_lt_of_le above less) (not_lt.mpr crossing.from_)
  · intro after
    exact lt_of_lt_of_le crossing.below (cdf_mono row thr after)

theorem Crossing.kept_pos (crossing : Crossing row thr tgt tok) : 0 < row.kept thr tok := by
  have below := crossing.below
  rw [cdf_succ] at below
  have start := crossing.from_
  linarith

theorem Crossing.token (crossing : Crossing row thr tgt tok) :
    thr ≤ row.pattern tok ∧ 0 < value (row.pattern tok) := by
  have pos := crossing.kept_pos
  unfold ProbRow.kept at pos
  split at pos
  · exact ⟨by assumption, pos⟩
  · exact absurd pos (lt_irrefl _)

/-- There is a crossing. -/
theorem crossing_exists (nonneg : 0 ≤ tgt) (below : tgt < row.mass thr) :
    ∃ tok, Crossing row thr tgt tok := by
  have reached : ∃ n, tgt < row.cdf thr n := ⟨_, below⟩
  obtain ⟨n, above, least⟩ : ∃ n, tgt < row.cdf thr n ∧ ∀ m < n, ¬ tgt < row.cdf thr m :=
    ⟨Nat.find reached, Nat.find_spec reached, fun m => Nat.find_min reached⟩
  cases n with
  | zero => exact absurd (lt_of_le_of_lt nonneg above) (lt_irrefl _)
  | succ tok =>
    refine ⟨tok, ?_, not_lt.mp (least tok (Nat.lt_succ_self tok)), above⟩
    by_contra past
    exact least _ (by omega) below

end Token

/-! ### The masses of the CTAs -/

section Ctas

variable (row : ProbRow) (grid : Grid row.bits.length) {thr : Int} (comparable : Comparable thr)

theorem stop_eq (cta : Nat) : grid.stop cta = min ((cta + 1) * grid.chunk) row.bits.length := by
  unfold Grid.stop Grid.start
  rw [Nat.succ_mul]

include comparable

theorem keptMass_eq (cta : Nat) : keptMass row grid thr cta =
      ((chunkRange grid.chunk row.bits.length cta).map (row.kept thr)).sum := by
  have each : laneMass row thr (grid.stop cta) =
      fun off => if off < grid.stop cta then row.kept thr off else 0 :=
    funext (laneMass_eq row comparable _)
  unfold keptMass
  rw [each]
  exact sum_blocks grid.lanes (row.kept thr)

theorem keptMass_sum (count : Nat) : ((List.range count).map (keptMass row grid thr)).sum =
      row.cdf thr (min (count * grid.chunk) row.bits.length) := by
  unfold ProbRow.cdf
  rw [← chunks_upTo, map_flatMap]
  induction range count with
  | nil => rfl
  | cons cta later ih =>
    rw [map_cons, sum_cons, ih, flatMap_cons, sum_append, keptMass_eq row grid comparable]

theorem groupSum_eq {lanes count : Nat} (enough : grid.ctas ≤ lanes) (within : count ≤ grid.ctas) :
    ((List.range lanes).map fun goff => if goff < count then ctaLanes row grid thr goff else 0).sum =
      row.cdf thr (min (count * grid.chunk) row.bits.length) := by
  rw [← keptMass_sum row grid comparable]
  obtain ⟨more, rfl⟩ := Nat.exists_eq_add_of_le (within.trans enough)
  rw [range_add, map_append, sum_append]
  have none : (((range more).map (count + ·)).map fun goff =>
      if goff < count then ctaLanes row grid thr goff else 0).sum = 0 := by
    apply sum_eq_zero
    intro x mem
    obtain ⟨goff, isLane, rfl⟩ := mem_map.mp mem
    obtain ⟨i, -, rfl⟩ := mem_map.mp isLane
    exact if_neg (by omega)
  rw [none, add_zero]
  refine congrArg sum (map_congr_left fun goff isLane => ?_)
  have pre := mem_range.mp isLane
  unfold ctaLanes
  rw [if_pos pre, if_pos (pre.trans_le within)]

end Ctas

/-! ### One CTA -/

section Cta

variable (row : ProbRow) (grid : Grid row.bits.length) {thr : Int} (comparable : Comparable thr)
  {tgt : ℚ} {tok : Nat} (crossing : Crossing row thr tgt tok)

include comparable in
theorem lanes_cdf {s0 stop : Nat} (within : s0 ≤ stop) (n : Nat) :
    row.cdf thr s0 + ((List.range n).map fun lane => laneMass row thr stop (s0 + lane)).sum =
      row.cdf thr (min (s0 + n) stop) := by
  induction n with
  | zero =>
    rw [add_zero, min_eq_left within]
    exact add_zero _
  | succ n ih =>
    rw [range_succ, map_append, sum_append, ← add_assoc, ih, map_singleton,
      sum_singleton, laneMass_eq row comparable]
    by_cases lt : s0 + n < stop
    · rw [if_pos lt, min_eq_left lt.le, min_eq_left (show s0 + (n + 1) ≤ stop from lt), ← cdf_succ]
      rfl
    · rw [if_neg lt, add_zero, min_eq_right (by omega), min_eq_right (by omega)]

theorem foldr_min_spec (b : Nat) (values : List Nat) : (∀ x ∈ values, values.foldr min b ≤ x) ∧
      (values.foldr min b = b ∨ values.foldr min b ∈ values) := by
  induction values with
  | nil => exact ⟨fun x mem => absurd mem not_mem_nil, Or.inl rfl⟩
  | cons x values ih =>
    obtain ⟨lower, attained⟩ := ih
    rw [foldr_cons]
    constructor
    · intro z mem
      rcases mem_cons.mp mem with rfl | later
      · exact min_le_left _ _
      · exact (min_le_right _ _).trans (lower z later)
    · rcases min_choice x (values.foldr min b) with isFirst | isRest
      · rw [isFirst]
        exact Or.inr mem_cons_self
      · rw [isRest]
        exact attained.imp_right (mem_cons_of_mem _)

include crossing

theorem first_lane {s0 stop : Nat} (low : s0 ≤ tok) (block : Nat) : ((List.range block).map fun i =>
        if tgt < row.cdf thr (min (s0 + (i + 1)) stop) then s0 + i
        else row.bits.length).foldr min row.bits.length =
      if tok < min (s0 + block) stop then tok else row.bits.length := by
  simp only [crossing.crossing_lt]
  have lt := crossing.inside
  obtain ⟨lower, attained⟩ := foldr_min_spec row.bits.length ((range block).map fun i =>
    if tok < min (s0 + (i + 1)) stop then s0 + i else row.bits.length)
  obtain ⟨least, isLeast⟩ : ∃ least, least = ((range block).map fun i =>
    if tok < min (s0 + (i + 1)) stop then s0 + i else row.bits.length).foldr min row.bits.length :=
    ⟨_, rfl⟩
  rw [← isLeast] at lower attained ⊢
  by_cases holds : tok < min (s0 + block) stop
  · rw [if_pos holds]
    have most := lower _ (mem_map.mpr ⟨tok - s0, mem_range.mpr (by omega), rfl⟩)
    rw [if_pos (by omega)] at most
    rcases attained with isEnd | mem
    · omega
    · obtain ⟨i, -, isLane⟩ := mem_map.mp mem
      split at isLane <;> omega
  · rw [if_neg holds]
    rcases attained with isEnd | mem
    · exact isEnd
    · obtain ⟨i, isIn, isLane⟩ := mem_map.mp mem
      have pre := mem_range.mp isIn
      rw [if_neg (by omega)] at isLane
      exact isLane.symm

include comparable

theorem drawBlock_eq {s0 stop : Nat} (within : s0 ≤ stop) {drawing : Drawing}
    (isAcc : drawing.acc = row.cdf thr s0) :
    (drawBlock row grid thr tgt stop drawing s0).acc = row.cdf thr (min (s0 + grid.block) stop) ∧
      (drawBlock row grid thr tgt stop drawing s0).stores =
        drawing.stores ++ if s0 ≤ tok ∧ tok < min (s0 + grid.block) stop then [tok] else [] := by
  have lt := crossing.inside
  unfold drawBlock
  dsimp only
  rw [isAcc]
  constructor
  · rw [← lanes_cdf row comparable within, blockLanes, map_map]
    rfl
  · have lanes : ((range grid.block).map fun i =>
        if tgt < row.cdf thr s0 + cumsum (fun lane => laneMass row thr stop (s0 + lane)) i
        then s0 + i else row.bits.length) = (range grid.block).map fun i =>
          if tgt < row.cdf thr (min (s0 + (i + 1)) stop) then s0 + i else row.bits.length := by
      refine map_congr_left fun i _ => ?_
      rw [← lanes_cdf row comparable within]
      rfl
    rw [lanes]
    refine congrArg _ ?_
    have pre : row.cdf thr s0 ≤ tgt ↔ s0 ≤ tok := by rw [← not_lt, crossing.crossing_lt, not_lt]
    by_cases low : s0 ≤ tok
    · rw [first_lane row crossing low]
      by_cases holds : tok < min (s0 + grid.block) stop
      · rw [if_pos holds, if_pos ⟨lt, pre.mpr low⟩, if_pos ⟨low, holds⟩]
      · rw [if_neg holds, if_neg fun stores => lt_irrefl _ stores.1, if_neg fun both => holds both.2]
    · rw [if_neg fun stores => low (pre.mp stores.2), if_neg fun both => low both.1]

theorem drawBlocks {start stop : Nat} (within : start ≤ stop) {acc : ℚ}
    (isAcc : acc = row.cdf thr start) {count : Nat}
    (few : count ≤ cdiv (stop - start) grid.block) :
    let drawing := ((List.range count).map fun t => start + t * grid.block).foldl
      (drawBlock row grid thr tgt stop) ⟨acc, -1, []⟩
    drawing.acc = row.cdf thr (min (start + count * grid.block) stop) ∧ drawing.stores =
        if start ≤ tok ∧ tok < min (start + count * grid.block) stop then [tok] else [] := by
  intro drawing
  induction count with
  | zero =>
    refine ⟨?_, ?_⟩
    · rw [Nat.zero_mul, add_zero, min_eq_left within]
      exact isAcc
    · rw [if_neg (by omega)]
      rfl
  | succ count ih =>
    obtain ⟨accIs, storesAre⟩ := ih (by omega)
    have started := lt_cdiv (show count < cdiv (stop - start) grid.block by omega)
    have reached : min (start + count * grid.block) stop = start + count * grid.block := by omega
    rw [reached] at accIs storesAre
    obtain ⟨accNext, storesNext⟩ := drawBlock_eq row grid comparable crossing
      (show start + count * grid.block ≤ stop by omega) accIs
    have isNext : drawing = drawBlock row grid thr tgt stop
        (((range count).map fun t => start + t * grid.block).foldl
          (drawBlock row grid thr tgt stop) ⟨acc, -1, []⟩) (start + count * grid.block) := by
      show foldl _ _ _ = _
      rw [range_succ, map_append, foldl_append]
      rfl
    rw [isNext, Nat.succ_mul, ← add_assoc]
    refine ⟨accNext, storesNext.trans ?_⟩
    rw [storesAre]
    by_cases pre : start ≤ tok ∧ tok < start + count * grid.block
    · rw [if_pos pre, if_neg (by omega), if_pos (by omega), append_nil]
    · rw [if_neg pre, nil_append]
      exact if_congr (by omega) rfl rfl

theorem drawLoop (cta : Nat) {acc : ℚ}
    (isAcc : acc = row.cdf thr (min (cta * grid.chunk) row.bits.length)) :
    let drawing := (grid.blocks cta).foldl (drawBlock row grid thr tgt (grid.stop cta)) ⟨acc, -1, []⟩
    drawing.acc = row.cdf thr (grid.stop cta) ∧
      drawing.stores = if grid.start cta ≤ tok ∧ tok < grid.stop cta then [tok] else [] := by
  have lt := crossing.inside
  have ends := stop_eq row grid cta
  have starts : grid.start cta = cta * grid.chunk := rfl
  rw [Nat.succ_mul] at ends
  intro drawing
  rcases le_total (grid.start cta) (grid.stop cta) with forward | past
  · have first : acc = row.cdf thr (grid.start cta) := by
      rw [isAcc]
      congr 1
      omega
    obtain ⟨accIs, storesAre⟩ := drawBlocks row grid comparable crossing forward first le_rfl
    have reach := le_cdiv_mul (grid.stop cta - grid.start cta) grid.lanes
    have isStop : min (grid.start cta +
        cdiv (grid.stop cta - grid.start cta) grid.block * grid.block) (grid.stop cta) =
          grid.stop cta := by omega
    rw [isStop] at accIs storesAre
    exact ⟨accIs, storesAre⟩
  · have none : grid.blocks cta = [] := by
      unfold Grid.blocks blockStarts cdiv
      rw [Nat.sub_eq_zero_of_le past, zero_add, Nat.div_eq_of_lt (Nat.sub_lt grid.lanes one_pos)]
      rfl
    have isDrawing : drawing = ⟨acc, -1, []⟩ := by
      show foldl _ _ _ = _
      rw [none]
      rfl
    rw [isDrawing, if_neg (by omega)]
    refine ⟨isAcc.trans ?_, rfl⟩
    congr 1
    omega

omit comparable in
theorem token_cta : tok / grid.chunk < grid.ctas ∧
    ∀ cta, grid.start cta ≤ tok ∧ tok < grid.stop cta ↔ cta = tok / grid.chunk := by
  have lt := crossing.inside
  have covers := grid.covers
  have pos : 0 < grid.chunk := by
    apply Nat.pos_of_ne_zero
    intro none
    rw [none] at covers
    omega
  refine ⟨(Nat.div_lt_iff_lt_mul pos).mpr (by omega), fun cta => ?_⟩
  rw [stop_eq, Grid.start, eq_comm, Nat.div_eq_iff pos]
  have next : (cta + 1) * grid.chunk = cta * grid.chunk + grid.chunk := Nat.succ_mul _ _
  omega

theorem token_mass : 0 < ctaLanes row grid thr (tok / grid.chunk) := by
  obtain ⟨within, holds⟩ := token_cta row grid crossing
  obtain ⟨low, high⟩ := (holds _).mpr rfl
  have lt := crossing.inside
  unfold ctaLanes
  rw [if_pos within]
  have upTo := keptMass_sum row grid comparable (tok / grid.chunk + 1)
  rw [range_succ, map_append, sum_append, keptMass_sum row grid comparable,
    map_singleton, sum_singleton, ← stop_eq] at upTo
  have above := (crossing.crossing_lt (grid.stop (tok / grid.chunk))).mpr high
  have below : ¬ tgt < row.cdf thr (min (tok / grid.chunk * grid.chunk) row.bits.length) := by
    rw [crossing.crossing_lt]
    unfold Grid.start at low
    omega
  linarith

/-- **The CTA that holds the token stores it, and nothing else is stored**: behind the loop the mass is
above the target, or a later CTA has one. -/
theorem drawCta_eq {u : ℚ} (isTarget : tgt = u * row.mass thr) {cta : Nat} (within : cta < grid.ctas) :
    drawCta row grid thr u cta = if cta = tok / grid.chunk then [tok] else [] := by
  have lt := crossing.inside
  have enough := le_nextPowerOf2 grid.ctas
  have pre := groupSum_eq row grid comparable enough within.le
  have upTo := groupSum_eq row grid comparable enough (show cta + 1 ≤ grid.ctas from within)
  have all : ((range (nextPowerOf2 grid.ctas)).map (ctaLanes row grid thr)).sum = row.mass thr := by
    have whole := groupSum_eq row grid comparable enough (le_refl grid.ctas)
    rw [Nat.min_eq_right grid.covers] at whole
    refine Eq.trans (congrArg sum (map_congr_left fun goff _ => ?_)) whole
    unfold ctaLanes
    split <;> rfl
  have isStop := stop_eq row grid cta
  simp only [Nat.lt_succ_iff] at upTo
  rw [← isStop] at upTo
  obtain ⟨accIs, storesAre⟩ := drawLoop row grid comparable crossing cta rfl
  obtain ⟨isCta, holds⟩ := token_cta row grid crossing
  unfold drawCta
  dsimp only
  rw [pre, upTo, all, ← isTarget, accIs, storesAre]
  have never : ¬ (row.cdf thr (grid.stop cta) ≤ tgt ∧ 0 ≤ ((grid.blocks cta).foldl
      (drawBlock row grid thr tgt (grid.stop cta))
        ⟨row.cdf thr (min (cta * grid.chunk) row.bits.length), -1, []⟩).lastKept ∧
      (tgt < row.cdf thr (grid.stop cta) ∨ ((range (nextPowerOf2 grid.ctas)).countP fun goff =>
          cta < goff ∧ 0 < ctaLanes row grid thr goff) = 0)) := by
    rintro ⟨ended, -, owns | isLast⟩
    · exact absurd owns (not_lt.mpr ended)
    · have past : grid.stop cta ≤ tok := by
        rw [← not_lt, ← crossing.crossing_lt, not_lt]
        exact ended
      have later : cta < tok / grid.chunk := by
        obtain ⟨low, high⟩ := (holds _).mpr rfl
        by_contra notLater
        have less := Nat.mul_le_mul_right grid.chunk (Nat.succ_le_succ (not_lt.mp notLater))
        rw [stop_eq] at past high
        simp only [Nat.succ_eq_add_one] at less
        omega
      rw [countP_eq_zero] at isLast
      refine isLast (tok / grid.chunk) (mem_range.mpr (by omega)) ?_
      rw [decide_eq_true_iff]
      exact ⟨later, token_mass row grid comparable crossing⟩
  rw [if_neg never, append_nil]
  exact if_congr (holds cta) rfl rfl

/-- One token is stored. -/
theorem drawStores_eq {u : ℚ} (isTarget : tgt = u * row.mass thr) :
    drawStores row grid thr u = [tok] := by
  obtain ⟨isCta, -⟩ := token_cta row grid crossing
  unfold drawStores
  have each : ∀ cta ∈ range grid.ctas, drawCta row grid thr u cta =
      if cta = tok / grid.chunk then [tok] else [] := fun cta mem =>
    drawCta_eq row grid comparable crossing isTarget (mem_range.mp mem)
  rw [flatMap_def, map_congr_left each, ← flatMap_def, flatMap_only, if_pos isCta]

end Cta

/-! ### Without a draw -/

def renormed (row : ProbRow) (thr : Int) : List ℚ :=
  row.bits.map fun y : Nat => if thr ≤ (y : Int) then value y / row.mass thr else 0

theorem renormStores_writes (row : ProbRow) (grid : Grid row.bits.length) {thr : Int}
    (comparable : Comparable thr) : Writes (renormStores row grid thr) (renormed row thr) := by
  have size : (renormed row thr).length = row.bits.length := by
    unfold renormed
    rw [length_map]
  apply writes_of_mem
  · intro store mem
    obtain ⟨cta, -, inCta⟩ := mem_flatMap.mp mem
    obtain ⟨s0, -, inBlock⟩ := mem_flatMap.mp inCta
    obtain ⟨off, -, isStore⟩ := mem_filterMap.mp inBlock
    split at isStore
    · cases isStore
      have lt : off < row.bits.length := by
        have ends := stop_eq row grid cta
        omega
      refine ⟨off, rfl, ?_⟩
      have isPattern : row.pattern off = row.bits[off] := by
        unfold ProbRow.pattern
        rw [getD_eq_getElem _ _ lt]
      unfold renormed
      rw [getElem?_map, getElem?_eq_getElem lt, Option.map_some,
        keptSum_eq row grid comparable, isPattern, mul_one_div]
      refine congrArg some (if_congr ?_ rfl rfl)
      rw [← isPattern]
      exact (keeps_iff (pattern_lt row off) comparable).symm
    · cases isStore
  · intro off within
    rw [size] at within
    have every : off ∈ (range grid.ctas).flatMap (chunkRange grid.chunk row.bits.length) := by
      rw [chunks_flatMap grid.covers]
      exact mem_range.mpr within
    obtain ⟨cta, isCta, inChunk⟩ := mem_flatMap.mp every
    have lane : off ∈ ((grid.blocks cta).flatMap (blockLanes grid.block)).filter
        (· < grid.stop cta) := by
      unfold Grid.blocks
      rw [masked_lanes grid.lanes]
      exact inChunk
    obtain ⟨inBlocks, pre⟩ := mem_filter.mp lane
    obtain ⟨s0, isBlock, isLane⟩ := mem_flatMap.mp inBlocks
    refine ⟨_, mem_flatMap.mpr ⟨cta, isCta, mem_flatMap.mpr ⟨s0, isBlock,
      mem_filterMap.mpr ⟨off, isLane, if_pos (of_decide_eq_true pre)⟩⟩⟩, rfl⟩

end FreeToken.Sampling
