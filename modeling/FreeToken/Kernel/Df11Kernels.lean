/-
**The kernels against the reference.**
-/

import FreeToken.Kernel.Df11Launch
import FreeToken.Kernel.Df11Lossless
import FreeToken.Kernel.Df11Rows

namespace FreeToken.Df11

open BitStream List

def seenOf (steps : List LaneStep) : List (Int × Int) :=
  steps.map fun step => (step.position, step.window)

def DecodeAgrees (c : Bundle) (block : Nat) : Prop :=
  ∃ lanes values, df11DecodeKernel c block = some lanes ∧ df11DecompressRef c = some values ∧
    Writes (storesOf lanes) values ∧
    ∀ j < c.numChunks, ∃ start steps, c.chunkStart[j]? = some start ∧ lanes[j]? = some steps ∧
      windowsFrom c.bitstream c.lut c.lmax (chunkLength c.n c.numChunks c.rows j) start.toInt =
        some ((seenOf steps).take (chunkLength c.n c.numChunks c.rows j))

def gathered (values : List (BitVec 16)) (cols : Nat) (ids : List Nat) : List (BitVec 16) :=
  (List.range (ids.length * cols)).map fun p =>
    values.getD (ids.getD (p / cols) 0 * cols + p % cols) 0

def GatherAgrees (c : RowBundle) (ids : List Nat) (block : Nat) : Prop :=
  ∃ lanes values, df11GatherKernel c ids block = some lanes ∧
    df11DecompressRowsRef c = some values ∧
    Writes (storesOf lanes) (gathered values c.cols ids) ∧
    ∀ (t : Nat) (isId : t < ids.length), ∃ start steps, c.chunkStart[ids[t]]? = some start ∧
      lanes[t]? = some steps ∧
      windowsFrom c.bitstream c.lut c.lmax c.cols start = some (seenOf steps)

/-! ### The decode kernel -/

structure Bundle.Ok (c : Bundle) : Prop where
  lut : LutOk c.lut c.lmax
  narrow : c.lmax ≤ 32
  low8 : c.low8.length = c.n
  starts : c.chunkStart.length = c.numChunks
  nonempty : 0 < c.numChunks
  isRow : c.rows = rowsOf c.n c.numChunks
  own : ∀ start ∈ c.chunkStart, 0 ≤ start.toInt

/-- No index of the decode kernel is cut: the padded positions fit 32 bits, or the indices have 64. -/
def Bundle.Fits (c : Bundle) : Prop :=
  c.numChunks ≤ 2 ^ 31 ∧ (c.numChunks < 2 ^ 31 → c.rows * c.numChunks ≤ 2 ^ 31)

def Bundle.Low (c : Bundle) : Prop :=
  ∀ start ∈ c.chunkStart, ∀ seen,
    windowsFrom c.bitstream c.lut c.lmax c.rows start.toInt = some seen →
      ∀ window ∈ seen, window.2 < 2 ^ 31

section Decode

variable {c : Bundle}

theorem reference_values (ok : c.Ok) {symsOf : Nat → List Nat}
    (each : ∀ j < c.numChunks, decodeChunk c j = some (symsOf j) ∧
      (symsOf j).length = chunkLength c.n c.numChunks c.rows j) :
    ∃ values, df11DecompressRef c = some values ∧ values.length = c.n ∧ ∀ p < c.n, values[p]? =
        some (join ((symsOf (p % c.numChunks)).getD (p / c.numChunks) 0) (c.low8.getD p 0)) := by
  have upTo : ∀ k ≤ c.numChunks, ∃ expOut, (range k).foldlM (fun expOut j => do
        return scatterChunk c.numChunks expOut j (← decodeChunk c j)) (replicate c.n 0) =
          some expOut ∧ expOut.length = c.n ∧
      ∀ p < c.n, p % c.numChunks < k →
        expOut[p]? = some ((symsOf (p % c.numChunks)).getD (p / c.numChunks) 0) := by
    intro k
    induction k with
    | zero =>
      intro _
      exact ⟨_, rfl, length_replicate, fun p _ none => absurd none (Nat.not_lt_zero _)⟩
    | succ k ih =>
      intro within
      obtain ⟨expOut, folded, whole, pre⟩ := ih (by omega)
      obtain ⟨decoded, length⟩ := each k within
      have get := fun p => scatter_get within (symsOf k) 0 expOut p
      refine ⟨_, ?_, ?_, fun p lt below => (get p).trans ?_⟩
      · rw [range_succ, foldlM_append, folded]
        change (decodeChunk _ k >>= _) >>= _ = _
        rw [decoded]
        rfl
      · have keeps : ∀ (entries : List (Nat × Nat)) (expOut : List Nat) (g : Nat),
            (entries.foldl (fun expOut entry => expOut.set (entry.2 * g + k) entry.1)
              expOut).length = expOut.length := by
          intro entries
          induction entries with
          | nil => exact fun _ _ => rfl
          | cons entry entries ih => exact fun expOut g => (ih _ g).trans length_set
        exact (keeps _ _ _).trans whole
      · have place := Nat.div_add_mod p c.numChunks
        rw [Nat.mul_comm] at place
        by_cases here : p % c.numChunks = k
        · have row : p / c.numChunks < (symsOf k).length := by
            rw [length, lt_chunkLength ok.nonempty ok.isRow, ← here, place]
            exact lt
          rw [if_pos ⟨here, Nat.zero_le _, by omega, by omega⟩, here, Nat.sub_zero,
            getD_eq_getElem?_getD, getElem?_eq_getElem row]
          rfl
        · rw [if_neg fun all => here all.1]
          exact pre p lt (by omega)
  obtain ⟨expOut, folded, whole, same⟩ := upTo _ le_rfl
  refine ⟨(expOut.zip c.low8).map fun value => join value.1 value.2, ?_, ?_, fun p lt => ?_⟩
  · exact (congrArg (· >>= _) folded).trans rfl
  · rw [length_map, length_zip, whole, ok.low8, Nat.min_self]
  · have isExp := same p lt (Nat.mod_lt p ok.nonempty)
    have isLow : c.low8[p]? = some (c.low8.getD p 0) := by
      rw [getD_eq_getElem?_getD, getElem?_eq_getElem (ok.low8.symm ▸ lt)]
      rfl
    have both : (expOut.zip c.low8)[p]? =
        some ((symsOf (p % c.numChunks)).getD (p / c.numChunks) 0, c.low8.getD p 0) :=
      getElem?_zip_eq_some.mpr ⟨isExp, isLow⟩
    rw [getElem?_map, both]
    rfl

theorem laneIndex_eq (fits : c.Fits) {i j : Nat} (isRow : i < c.rows)
    (isChunk : j < c.numChunks) : laneIndex c.numChunks j i = (i * c.numChunks + j : Nat) := by
  have step : (i + 1) * c.numChunks ≤ c.rows * c.numChunks := Nat.mul_le_mul_right _ isRow
  rw [Nat.succ_mul] at step
  unfold laneIndex
  split
  · rename_i few
    have bound := fits.2 few
    exact lane_number (by omega)
  · rfl

theorem laneIndex_wraps {i j : Nat} (few : c.numChunks < 2 ^ 31)
    (isChunk : j < c.numChunks) (place : i * c.numChunks + j = 2 ^ 31) :
    laneIndex c.numChunks j i < 0 := by
  have wraps : wrap32 ((2 ^ 31 : Nat) : Int) = -2 ^ 31 := by decide
  unfold laneIndex
  rw [if_pos few, ← Nat.cast_mul]
  cases j with
  | zero =>
    rw [add_zero] at place
    rw [place, wraps, Nat.cast_zero, Int.add_zero]
    decide
  | succ j =>
    rw [wrap32_of_lt (by omega), ← Nat.cast_add, place, wraps]
    decide

theorem decodeLaneOf_eq (ok : c.Ok) {j : Nat} (isChunk : j < c.numChunks) {start : BitVec 32}
    (isStart : c.chunkStart[j]? = some start) :
    decodeLaneOf c j = laneFrom c.input (c.places j) c.rows 0 start.toInt.toNat := by
  have own := ok.own start (mem_of_getElem? isStart)
  obtain ⟨pos, isPos⟩ : ∃ pos : Nat, start.toInt = pos := ⟨start.toInt.toNat, by omega⟩
  have valid : decide ((j : Int) < c.numChunks) = true := decide_eq_true (by exact_mod_cast isChunk)
  obtain ⟨buffer, started, holds⟩ := BitBuffer.start_holds c.bitstream pos
  unfold decodeLaneOf
  rw [valid, loadAt_natCast, isStart]
  show (BitBuffer.start c.bitstream true start.toInt).bind _ = _
  rw [isPos, started, Option.bind_some, Int.toNat_natCast]
  exact @decodeLane_eq c.input _ ok.lut ok.narrow valid c.rows 0 _ _ _ _ holds

theorem decodeLaneOf_idle (ok : c.Ok) {p : Nat} (past : c.numChunks ≤ p) :
    ∃ steps, decodeLaneOf c p = some steps ∧ ∀ step ∈ steps, step.store = none := by
  have invalid : decide ((p : Int) < c.numChunks) = false :=
    decide_eq_false (by exact_mod_cast not_lt.mpr past)
  have idle : ∀ i, (c.places p).storing i = false := by
    intro i
    apply decide_eq_false
    rintro ⟨lt, -⟩
    have none : ¬((p : Int) < c.numChunks) := by exact_mod_cast not_lt.mpr past
    exact none lt
  obtain ⟨buffer, started, empty⟩ : ∃ buffer, BitBuffer.start c.bitstream false 0 = some buffer ∧
      buffer.acc = 0 := by
    unfold BitBuffer.start
    dsimp only
    rw [loadWord_masked]
    exact ⟨_, rfl, by simp⟩
  obtain ⟨steps, ended, unstored⟩ := @decodeLane_idle c.input _ ok.lut invalid idle
    c.rows 0 _ empty
  refine ⟨steps, ?_, unstored⟩
  unfold decodeLaneOf
  rw [invalid]
  show (BitBuffer.start c.bitstream false 0).bind _ = _
  rw [started]
  exact ended

theorem start_some (ok : c.Ok) {j : Nat} (isChunk : j < c.numChunks) :
    ∃ start, c.chunkStart[j]? = some start :=
  ⟨_, getElem?_eq_getElem (ok.starts.symm ▸ isChunk)⟩

theorem storing_iff {j i : Nat} (isChunk : j < c.numChunks) :
    (c.places j).storing i = true ↔ laneIndex c.numChunks j i < c.n := by
  have lt : (j : Int) < c.numChunks := by exact_mod_cast isChunk
  show decide ((j : Int) < c.numChunks ∧ laneIndex c.numChunks j i < c.n) = true ↔ _
  rw [decide_eq_true_iff]
  exact ⟨fun both => both.2, fun less => ⟨lt, less⟩⟩

/-- **A launch that comes to its end** has cut no index and seen no window with its highest bit set. -/
theorem decode_ended (ok : c.Ok) {block k : Nat} (width : k ≤ 31) (isBlock : block = 2 ^ k)
    {lanes : List (List LaneStep)} (ended : df11DecodeKernel c block = some lanes) :
    c.Fits ∧ c.Low := by
  have positive : 0 < block := isBlock ▸ Nat.two_pow_pos k
  have few : c.numChunks ≤ 2 ^ 31 := by
    by_contra many
    have wrapped := launchLanes_wraps positive ended (by omega) width isBlock
    have valid : decide ((-2 ^ 31 : Int) < c.numChunks) = true := decide_eq_true (by omega)
    unfold decodeLaneOf at wrapped
    rw [valid, loadAt_neg _ (by decide)] at wrapped
    cases wrapped
  -- every lane with a chunk comes to its end
  have each : ∀ j (isChunk : j < c.numChunks), ∃ start steps, c.chunkStart[j]? = some start ∧
      laneFrom c.input (c.places j) c.rows 0 start.toInt.toNat = some steps := by
    intro j isChunk
    have place := Nat.div_add_mod j block
    have inBlock := Nat.mod_lt j positive
    have isProgram : j / block < (c.numChunks + block - 1) / block := by
      rw [Nat.lt_iff_add_one_le, Nat.le_div_iff_mul_le positive, Nat.succ_mul, Nat.mul_comm]
      omega
    have reached := launchLanes_some ended isProgram inBlock
    rw [Nat.mul_comm] at place
    rw [lane_number (by omega), place] at reached
    obtain ⟨start, isStart⟩ := start_some ok isChunk
    rw [decodeLaneOf_eq ok isChunk isStart] at reached
    obtain ⟨steps, isSteps⟩ := Option.isSome_iff_exists.mp reached
    exact ⟨_, steps, isStart, isSteps⟩
  refine ⟨⟨few, fun less => ?_⟩, ?_⟩
  · by_contra many
    rw [not_le] at many
    have isChunk := Nat.mod_lt (2 ^ 31) ok.nonempty
    have place := Nat.div_add_mod (2 ^ 31) c.numChunks
    rw [Nat.mul_comm] at place
    have isRow : 2 ^ 31 / c.numChunks < c.rows := by
      rw [Nat.div_lt_iff_lt_mul ok.nonempty]
      exact many
    obtain ⟨start, steps, -, isSteps⟩ := each _ isChunk
    obtain ⟨-, -, loads, -⟩ := @laneFrom_reference c.input _ ok.lut ok.narrow _ _ _ _ isSteps
    have negative := laneIndex_wraps less isChunk place
    have storing : (c.places (2 ^ 31 % c.numChunks : Nat)).storing (0 + 2 ^ 31 / c.numChunks) =
        true := by
      rw [Nat.zero_add, storing_iff isChunk]
      omega
    have loaded := loads _ isRow storing
    rw [Nat.zero_add] at loaded
    have none : loadAt c.input.low8 ((c.places (2 ^ 31 % c.numChunks : Nat)).source
        (2 ^ 31 / c.numChunks)) = none := loadAt_neg _ negative
    rw [none] at loaded
    cases loaded
  · intro start mem seen looked window isWindow
    obtain ⟨j, isStart⟩ := mem_iff_getElem?.mp mem
    have isChunk : j < c.numChunks := ok.starts ▸ (List.getElem?_eq_some_iff.mp isStart).1
    obtain ⟨other, steps, isOther, isSteps⟩ := each j isChunk
    obtain rfl := Option.some.inj (isStart.symm.trans isOther)
    obtain ⟨windows, low, -, -⟩ := @laneFrom_reference c.input _ ok.lut ok.narrow _ _ _ _ isSteps
    have own := ok.own start mem
    rw [Int.toNat_of_nonneg own] at windows
    rw [show windowsFrom c.input.stream c.input.lut c.input.lmax c.rows start.toInt = _ from looked]
      at windows
    rw [Option.some.inj windows] at isWindow
    obtain ⟨step, isStep, rfl⟩ := mem_map.mp isWindow
    exact low step isStep

theorem decode_lanes (ok : c.Ok) (fits : c.Fits) (low : c.Low) (p : Nat) :
    ∃ steps, decodeLaneOf c p = some steps ∧ (c.numChunks ≤ p → ∀ step ∈ steps, step.store = none) ∧
      ∀ start, c.chunkStart[p]? = some start →
        laneFrom c.input (c.places p) c.rows 0 start.toInt.toNat = some steps := by
  rcases lt_or_ge p c.numChunks with isChunk | past
  · obtain ⟨start, isStart⟩ := start_some ok isChunk
    have own := ok.own _ (mem_of_getElem? isStart)
    obtain ⟨steps, isSteps⟩ := @laneFrom_some c.input (c.places p) ok.lut c.rows 0
      start.toInt.toNat
      (by
        intro seen looked
        rw [Int.toNat_of_nonneg own] at looked
        exact low _ (mem_of_getElem? isStart) seen looked)
      (by
        intro i _ isRow storing
        rw [zero_add] at isRow
        rw [storing_iff isChunk, laneIndex_eq fits isRow isChunk] at storing
        have lt : i * c.numChunks + p < c.low8.length := by
          rw [ok.low8]
          exact_mod_cast storing
        show (loadAt c.low8 (laneIndex c.numChunks p i)).isSome = true
        rw [laneIndex_eq fits isRow isChunk, loadAt_natCast, getElem?_eq_getElem lt]
        rfl)
    refine ⟨steps, (decodeLaneOf_eq ok isChunk isStart).trans isSteps, fun past => by omega, ?_⟩
    intro other isOther
    rw [← Option.some.inj (isStart.symm.trans isOther)]
    exact isSteps
  · obtain ⟨steps, ended, unstored⟩ := decodeLaneOf_idle ok past
    refine ⟨steps, ended, fun _ => unstored, fun start isStart => ?_⟩
    have within := (List.getElem?_eq_some_iff.mp isStart).1
    rw [ok.starts] at within
    omega

theorem chunkLength_le (j : Nat) : chunkLength c.n c.numChunks c.rows j ≤ c.rows := by
  exact (List.takeWhile_prefix _).length_le.trans_eq length_range

theorem mem_storesOf {lanes : List (List LaneStep)} {store : Int × BitVec 16} :
    store ∈ storesOf lanes ↔ ∃ steps ∈ lanes, some store ∈ steps.map LaneStep.store := by
  unfold storesOf
  rw [mem_filterMap]
  constructor
  · rintro ⟨step, inLanes, isStore⟩
    obtain ⟨steps, isLane, inLane⟩ := mem_flatten.mp inLanes
    exact ⟨steps, isLane, mem_map.mpr ⟨step, inLane, isStore⟩⟩
  · rintro ⟨steps, isLane, inLane⟩
    obtain ⟨step, isStep, isStore⟩ := mem_map.mp inLane
    exact ⟨step, mem_flatten.mpr ⟨steps, isLane, isStep⟩, isStore⟩

theorem mem_laneStores {lane : LanePlaces} {low8 syms : List Nat} {store : Int × BitVec 16} :
    some store ∈ (syms.zipIdx 0).map (laneStore lane low8) ↔
      ∃ i < syms.length, lane.storing i = true ∧
        store = (lane.dest i, join (syms.getD i 0) ((loadAt low8 (lane.source i)).getD 0)) := by
  rw [mem_map]
  constructor
  · rintro ⟨entry, mem, isStore⟩
    obtain ⟨i, isEntry⟩ := mem_iff_getElem?.mp mem
    rw [getElem?_zipIdx, Option.map_eq_some_iff] at isEntry
    obtain ⟨sym, isSym, rfl⟩ := isEntry
    unfold laneStore at isStore
    rw [zero_add] at isStore
    split at isStore
    · rename_i storing
      refine ⟨i, (List.getElem?_eq_some_iff.mp isSym).1, storing, ?_⟩
      rw [getD_eq_getElem?_getD, isSym]
      exact (Option.some.inj isStore).symm
    · cases isStore
  · rintro ⟨i, lt, storing, rfl⟩
    refine ⟨(syms.getD i 0, i), mem_iff_getElem?.mpr ⟨i, ?_⟩, if_pos storing⟩
    rw [getElem?_zipIdx, getD_eq_getElem?_getD, getElem?_eq_getElem lt, zero_add]
    rfl

/-- **Where no index is cut and no window has its highest bit set, the kernel agrees.** -/
theorem decode_agrees (ok : c.Ok) (fits : c.Fits) (low : c.Low) {block k : Nat} (width : k ≤ 31)
    (isBlock : block = 2 ^ k) : DecodeAgrees c block := by
  have positive : 0 < block := isBlock ▸ Nat.two_pow_pos k
  choose steps ended idle fromStart using decode_lanes ok fits low
  obtain ⟨count, isCount⟩ : ∃ count, count = (c.numChunks + block - 1) / block * block := ⟨_, rfl⟩
  have enough : c.numChunks ≤ count := by
    have whole := Nat.div_add_mod (c.numChunks + block - 1) block
    have below := Nat.mod_lt (c.numChunks + block - 1) positive
    rw [mul_comm] at whole
    omega
  have launched : df11DecodeKernel c block = some ((range count).map steps) := by
    rw [isCount]
    refine launchLanes_eq ?_ fun p _ => ended p
    rw [isBlock]
    exact lanes_bound fits.1 width
  -- what the lane of a chunk sees and stores
  have lane : ∀ j < c.numChunks, ∃ start syms, c.chunkStart[j]? = some start ∧
      windowsFrom c.bitstream c.lut c.lmax c.rows start.toInt = some (seenOf (steps j)) ∧
      decodeFrom c.bitstream c.lut c.lmax c.rows start.toInt = some syms ∧ syms.length = c.rows ∧
      (steps j).map LaneStep.store = (syms.zipIdx 0).map (laneStore (c.places j) c.low8) := by
    intro j isChunk
    obtain ⟨start, isStart⟩ := start_some ok isChunk
    have own := ok.own start (mem_of_getElem? isStart)
    obtain ⟨windows, -, -, syms, decoded, stores⟩ :=
      @laneFrom_reference c.input _ ok.lut ok.narrow _ _ _ _ (fromStart j start isStart)
    obtain ⟨others, isOthers, length⟩ := @decodeFrom_total c.input ok.lut c.rows start.toInt.toNat
    obtain rfl := Option.some.inj (decoded.symm.trans isOthers)
    rw [Int.toNat_of_nonneg own] at windows decoded
    exact ⟨start, syms, isStart, windows, decoded, length, stores⟩
  choose! start syms isStart windows decoded length stores using lane
  obtain ⟨values, reference, size, value⟩ := @reference_values c ok
    (fun j => (syms j).take (chunkLength c.n c.numChunks c.rows j)) (fun j isChunk => by
      obtain ⟨more, isRows⟩ := Nat.exists_eq_add_of_le (@chunkLength_le c j)
      have whole := decoded j isChunk
      rw [isRows] at whole
      refine ⟨?_, by rw [length_take, length j isChunk, min_eq_left (chunkLength_le j)]⟩
      unfold decodeChunk
      rw [isStart j isChunk]
      exact @decodeFrom_take c.input _ _ _ _ whole)
  refine ⟨_, values, launched, reference, ?_, fun j isChunk => ?_⟩
  · apply writes_of_mem
    · intro store mem
      obtain ⟨laneSteps, isLane, inLane⟩ := mem_storesOf.mp mem
      obtain ⟨j, -, rfl⟩ := mem_map.mp isLane
      have isChunk : j < c.numChunks := by
        by_contra past
        obtain ⟨step, isStep, isStore⟩ := mem_map.mp inLane
        rw [idle j (by omega) step isStep] at isStore
        cases isStore
      rw [stores j isChunk] at inLane
      obtain ⟨i, isRow, storing, rfl⟩ := mem_laneStores.mp inLane
      rw [length j isChunk] at isRow
      have index := laneIndex_eq fits isRow isChunk
      rw [storing_iff isChunk, index] at storing
      have lt : i * c.numChunks + j < c.n := by exact_mod_cast storing
      obtain ⟨chunk, row⟩ := chunk_of_position i isChunk
      have within : i < chunkLength c.n c.numChunks c.rows j :=
        (lt_chunkLength ok.nonempty ok.isRow).mpr lt
      refine ⟨i * c.numChunks + j, index, ?_⟩
      show values[i * c.numChunks + j]? = some (join _
        ((loadAt c.low8 (laneIndex c.numChunks j i)).getD 0))
      rw [value _ lt, chunk, row, index, loadAt_natCast, getD_eq_getElem?_getD,
        getElem?_take_of_lt within, getD_eq_getElem?_getD, getD_eq_getElem?_getD]
    · intro p lt
      rw [size] at lt
      have isChunk := Nat.mod_lt p ok.nonempty
      have place := Nat.div_add_mod p c.numChunks
      rw [mul_comm] at place
      have within : p / c.numChunks < chunkLength c.n c.numChunks c.rows (p % c.numChunks) := by
        rw [lt_chunkLength ok.nonempty ok.isRow, place]
        exact lt
      have isRow := within.trans_le (chunkLength_le _)
      have index := laneIndex_eq fits isRow isChunk
      rw [place] at index
      have storing : (c.places (p % c.numChunks : Nat)).storing (p / c.numChunks) = true := by
        rw [storing_iff isChunk, index]
        exact_mod_cast lt
      have stored := (@mem_laneStores _ c.low8 _ _).mpr
        ⟨p / c.numChunks, (length _ isChunk).symm ▸ isRow, storing, rfl⟩
      rw [← stores _ isChunk] at stored
      have isLane : steps (p % c.numChunks) ∈ (range count).map steps :=
        mem_map.mpr ⟨_, mem_range.mpr (isChunk.trans_le enough), rfl⟩
      exact ⟨_, mem_storesOf.mpr ⟨_, isLane, stored⟩, index⟩
  · obtain ⟨more, isRows⟩ := Nat.exists_eq_add_of_le (@chunkLength_le c j)
    have whole := windows j isChunk
    rw [isRows] at whole
    refine ⟨start j, steps j, isStart j isChunk, ?_, @windowsFrom_take c.input _ _ _ _ whole⟩
    rw [getElem?_map, getElem?_range (isChunk.trans_le enough)]
    rfl

theorem decode_agrees_iff (ok : c.Ok) {block k : Nat} (width : k ≤ 31) (isBlock : block = 2 ^ k) :
    DecodeAgrees c block ↔ c.Fits ∧ c.Low := by
  constructor
  · rintro ⟨lanes, -, ended, -⟩
    exact decode_ended ok width isBlock ended
  · intro both
    exact decode_agrees ok both.1 both.2 width isBlock

end Decode

/-! ### The gather kernel -/

structure RowBundle.Ok (c : RowBundle) : Prop where
  lut : LutOk c.lut c.lmax
  narrow : c.lmax ≤ 32
  low8 : c.low8.length = c.rows * c.cols
  starts : c.chunkStart.length = c.rows

def RowBundle.Low (c : RowBundle) (ids : List Nat) : Prop :=
  ∀ r ∈ ids, ∀ start, c.chunkStart[r]? = some start → ∀ seen,
    windowsFrom c.bitstream c.lut c.lmax c.cols start = some seen →
      ∀ window ∈ seen, window.2 < 2 ^ 31

section Gather

variable {c : RowBundle} {ids : List Nat}

theorem reference_rows (ok : c.Ok) {symsOf : Nat → List Nat}
    (each : ∀ r < c.rows, decodeRow c r = some (symsOf r) ∧ (symsOf r).length = c.cols) :
    ∃ values, df11DecompressRowsRef c = some values ∧
      ∀ r < c.rows, ∀ k < c.cols, values[r * c.cols + k]? =
        some (join ((symsOf r).getD k 0) (c.low8.getD (r * c.cols + k) 0)) := by
  have decoded : (range c.rows).mapM (decodeRow c) = some ((range c.rows).map symsOf) :=
    mapM_some fun r mem => (each r (mem_range.mp mem)).1
  refine ⟨(((range c.rows).map symsOf).flatten.zip c.low8).map fun value =>
    join value.1 value.2, ?_, fun r isRow k isCol => ?_⟩
  · unfold df11DecompressRowsRef
    rw [decoded]
    rfl
  · have isItem : r < (range c.rows).length := by rwa [length_range]
    have sizes : ((range c.rows).map fun r => (symsOf r).length) =
        (range c.rows).map fun _ => c.cols :=
      map_congr_left fun r mem => (each r (mem_range.mp mem)).2
    have located := @flatMap_getElem? _ _ (range c.rows) symsOf r k isItem
      (by rwa [getElem_range, (each r isRow).2])
    rw [sizes, map_const', take_replicate, length_range, sum_replicate_nat,
      Nat.min_eq_left isRow.le, getElem_range, flatMap_def] at located
    have isSym : (symsOf r)[k]? = some ((symsOf r).getD k 0) := by
      rw [getD_eq_getElem?_getD, getElem?_eq_getElem ((each r isRow).2.symm ▸ isCol)]
      rfl
    have place : r * c.cols + k < c.rows * c.cols := by
      have next := Nat.mul_le_mul_right c.cols (Nat.succ_le_of_lt isRow)
      rw [Nat.succ_mul] at next
      omega
    have isLow : c.low8[r * c.cols + k]? = some (c.low8.getD (r * c.cols + k) 0) := by
      rw [getD_eq_getElem?_getD, getElem?_eq_getElem (ok.low8.symm ▸ place)]
      rfl
    have both : (((range c.rows).map symsOf).flatten.zip c.low8)[r * c.cols + k]? =
        some ((symsOf r).getD k 0, c.low8.getD (r * c.cols + k) 0) :=
      getElem?_zip_eq_some.mpr ⟨located.trans isSym, isLow⟩
    rw [getElem?_map, both]
    rfl

theorem gatherLaneOf_eq (ok : c.Ok) {t : Nat} (isId : t < ids.length) {start : Nat}
    (isStart : c.chunkStart[ids[t]]? = some start) :
    gatherLaneOf c ids t = laneFrom c.input (c.places ids.length t ids[t]) c.cols 0 start := by
  have valid : decide ((t : Int) < ids.length) = true := decide_eq_true (by exact_mod_cast isId)
  obtain ⟨buffer, started, holds⟩ := BitBuffer.start_holds c.bitstream start
  unfold gatherLaneOf
  rw [valid, loadAt_natCast, getElem?_eq_getElem isId]
  show ((masked true (loadAt c.chunkStart ids[t]) 0).bind _) = _
  rw [loadAt_natCast, isStart]
  show (BitBuffer.start c.bitstream true start).bind _ = _
  rw [started, Option.bind_some]
  exact @decodeLane_eq c.input _ ok.lut ok.narrow valid c.cols 0 _ _ _ _ holds

theorem gatherLaneOf_idle (ok : c.Ok) {p : Nat} (past : ids.length ≤ p) :
    ∃ steps, gatherLaneOf c ids p = some steps ∧ ∀ step ∈ steps, step.store = none := by
  have invalid : decide ((p : Int) < ids.length) = false :=
    decide_eq_false (by exact_mod_cast not_lt.mpr past)
  obtain ⟨buffer, started, empty⟩ : ∃ buffer, BitBuffer.start c.bitstream false 0 = some buffer ∧
      buffer.acc = 0 := by
    unfold BitBuffer.start
    dsimp only
    rw [loadWord_masked]
    exact ⟨_, rfl, by simp⟩
  obtain ⟨steps, ended, unstored⟩ := @decodeLane_idle c.input (c.places ids.length p 0) ok.lut
    invalid (fun _ => invalid) c.cols 0 buffer empty
  refine ⟨steps, ?_, unstored⟩
  unfold gatherLaneOf
  rw [invalid]
  show (BitBuffer.start c.bitstream false 0).bind _ = _
  rw [started]
  exact ended

theorem row_place {r k : Nat} (isRow : r < c.rows) (isCol : k < c.cols) :
    r * c.cols + k < c.rows * c.cols := by
  have next := Nat.mul_le_mul_right c.cols (Nat.succ_le_of_lt isRow)
  rw [Nat.succ_mul] at next
  omega

theorem row_start (ok : c.Ok) (inRange : ∀ r ∈ ids, r < c.rows) {t : Nat} (isId : t < ids.length) :
    ∃ start, c.chunkStart[ids[t]]? = some start :=
  ⟨_, getElem?_eq_getElem (ok.starts.symm ▸ inRange _ (getElem_mem isId))⟩

theorem gather_ended (ok : c.Ok) {block k : Nat} (width : k ≤ 31) (isBlock : block = 2 ^ k)
    {lanes : List (List LaneStep)}
    (ended : df11GatherKernel c ids block = some lanes) :
    ids.length ≤ 2 ^ 31 ∧ c.Low ids := by
  have positive : 0 < block := isBlock ▸ Nat.two_pow_pos k
  have few : ids.length ≤ 2 ^ 31 := by
    by_contra many
    have wrapped := launchLanes_wraps positive ended (by omega) width isBlock
    have valid : decide ((-2 ^ 31 : Int) < ids.length) = true := decide_eq_true (by omega)
    unfold gatherLaneOf at wrapped
    rw [valid, loadAt_neg _ (by decide)] at wrapped
    cases wrapped
  refine ⟨few, ?_⟩
  intro r mem start isStart seen looked window isWindow
  obtain ⟨t, isId, rfl⟩ := mem_iff_getElem.mp mem
  have place := Nat.div_add_mod t block
  have inBlock := Nat.mod_lt t positive
  have isProgram : t / block < (ids.length + block - 1) / block := by
    rw [Nat.lt_iff_add_one_le, Nat.le_div_iff_mul_le positive, Nat.succ_mul, Nat.mul_comm]
    omega
  have reached := launchLanes_some ended isProgram inBlock
  rw [Nat.mul_comm] at place
  rw [lane_number (by omega), place, gatherLaneOf_eq ok isId isStart] at reached
  obtain ⟨steps, isSteps⟩ := Option.isSome_iff_exists.mp reached
  obtain ⟨windows, low, -, -⟩ := @laneFrom_reference c.input _ ok.lut ok.narrow _ _ _ _ isSteps
  rw [show windowsFrom c.input.stream c.input.lut c.input.lmax c.cols start = _ from looked]
    at windows
  rw [Option.some.inj windows] at isWindow
  obtain ⟨step, isStep, rfl⟩ := mem_map.mp isWindow
  exact low step isStep

theorem gather_lanes (ok : c.Ok) (inRange : ∀ r ∈ ids, r < c.rows) (low : c.Low ids) (p : Nat) :
    ∃ steps, gatherLaneOf c ids p = some steps ∧
      (ids.length ≤ p → ∀ step ∈ steps, step.store = none) ∧
      ∀ isId : p < ids.length, ∀ start, c.chunkStart[ids[p]]? = some start →
        laneFrom c.input (c.places ids.length p ids[p]) c.cols 0 start = some steps := by
  rcases lt_or_ge p ids.length with isId | past
  · obtain ⟨start, isStart⟩ := row_start ok inRange isId
    have isRow := inRange _ (getElem_mem isId)
    obtain ⟨steps, isSteps⟩ := @laneFrom_some c.input (c.places ids.length p ids[p]) ok.lut
      c.cols 0 start (fun seen looked => low _ (getElem_mem isId) start isStart seen looked)
      (by
        intro k _ isCol _
        rw [zero_add] at isCol
        have lt : ids[p] * c.cols + k < c.low8.length := ok.low8 ▸ row_place isRow isCol
        show (loadAt c.low8 ((ids[p] : Int) * c.cols + k)).isSome = true
        rw [← Nat.cast_mul, ← Nat.cast_add, loadAt_natCast, getElem?_eq_getElem lt]
        rfl)
    refine ⟨steps, (gatherLaneOf_eq ok isId isStart).trans isSteps, fun past => by omega, ?_⟩
    intro _ other isOther
    rw [← Option.some.inj (isStart.symm.trans isOther)]
    exact isSteps
  · obtain ⟨steps, ended, unstored⟩ := gatherLaneOf_idle ok past
    exact ⟨steps, ended, fun _ => unstored, fun isId => by omega⟩

theorem gathered_length (values : List (BitVec 16)) (cols : Nat) (ids : List Nat) :
    (gathered values cols ids).length = ids.length * cols := by
  unfold gathered
  rw [length_map, length_range]

theorem gathered_get (values : List (BitVec 16)) {cols t k : Nat} (isId : t < ids.length)
    (isCol : k < cols) :
    (gathered values cols ids)[t * cols + k]? = some (values.getD (ids[t] * cols + k) 0) := by
  have lt : t * cols + k < ids.length * cols := by
    have next := Nat.mul_le_mul_right cols (Nat.succ_le_of_lt isId)
    rw [Nat.succ_mul] at next
    omega
  have row : (t * cols + k) / cols = t := by
    rw [Nat.mul_comm, Nat.mul_add_div (by omega), Nat.div_eq_of_lt isCol, Nat.add_zero]
  have col : (t * cols + k) % cols = k := by
    rw [Nat.mul_comm, Nat.mul_add_mod, Nat.mod_eq_of_lt isCol]
  unfold gathered
  rw [getElem?_map, getElem?_range lt, Option.map_some, row, col, getD_eq_getElem _ _ isId]

/-- **Where no lane is cut and no window has its highest bit set, the kernel agrees.** -/
theorem gather_agrees (ok : c.Ok) (inRange : ∀ r ∈ ids, r < c.rows) (few : ids.length ≤ 2 ^ 31)
    (low : c.Low ids) {block k : Nat} (width : k ≤ 31) (isBlock : block = 2 ^ k) :
    GatherAgrees c ids block := by
  have positive : 0 < block := isBlock ▸ Nat.two_pow_pos k
  choose steps ended idle fromStart using gather_lanes ok inRange low
  obtain ⟨count, isCount⟩ : ∃ count, count = (ids.length + block - 1) / block * block := ⟨_, rfl⟩
  have enough : ids.length ≤ count := by
    have whole := Nat.div_add_mod (ids.length + block - 1) block
    have below := Nat.mod_lt (ids.length + block - 1) positive
    rw [Nat.mul_comm] at whole
    omega
  have launched : df11GatherKernel c ids block = some ((range count).map steps) := by
    rw [isCount]
    refine launchLanes_eq ?_ fun p _ => ended p
    rw [isBlock]
    exact lanes_bound few width
  -- what the reference decodes of a row
  have rows : ∀ r < c.rows, ∃ syms, decodeRow c r = some syms ∧ syms.length = c.cols := by
    intro r isRow
    obtain ⟨start, isStart⟩ : ∃ start, c.chunkStart[r]? = some start :=
      ⟨_, getElem?_eq_getElem (ok.starts.symm ▸ isRow)⟩
    obtain ⟨syms, decoded, length⟩ := @decodeFrom_total c.input ok.lut c.cols start
    refine ⟨syms, ?_, length⟩
    unfold decodeRow
    rw [isStart]
    exact decoded
  choose! syms decoded length using rows
  obtain ⟨values, reference, value⟩ := @reference_rows c ok syms fun r isRow =>
    ⟨decoded r isRow, length r isRow⟩
  -- what the lane of a row sees and stores
  have lane : ∀ t, ∀ isId : t < ids.length, ∃ start, c.chunkStart[ids[t]]? = some start ∧
      windowsFrom c.bitstream c.lut c.lmax c.cols start = some (seenOf (steps t)) ∧
      (steps t).map LaneStep.store =
        ((syms ids[t]).zipIdx 0).map (laneStore (c.places ids.length t ids[t]) c.low8) := by
    intro t isId
    obtain ⟨start, isStart⟩ := row_start ok inRange isId
    obtain ⟨windows, -, -, others, isOthers, stores⟩ :=
      @laneFrom_reference c.input _ ok.lut ok.narrow _ _ _ _ (fromStart t isId start isStart)
    have row := decoded _ (inRange _ (getElem_mem isId))
    unfold decodeRow at row
    rw [isStart] at row
    obtain rfl : others = syms ids[t] := Option.some.inj (isOthers.symm.trans row)
    exact ⟨start, isStart, windows, stores⟩
  refine ⟨_, values, launched, reference, ?_, fun t isId => ?_⟩
  · apply writes_of_mem
    · intro store mem
      obtain ⟨laneSteps, isLane, inLane⟩ := mem_storesOf.mp mem
      obtain ⟨t, -, rfl⟩ := mem_map.mp isLane
      have isId : t < ids.length := by
        by_contra past
        obtain ⟨step, isStep, isStore⟩ := mem_map.mp inLane
        rw [idle t (by omega) step isStep] at isStore
        cases isStore
      have isRow := inRange _ (getElem_mem isId)
      obtain ⟨-, -, -, stores⟩ := lane t isId
      rw [stores] at inLane
      obtain ⟨k, isCol, -, rfl⟩ := mem_laneStores.mp inLane
      rw [length _ isRow] at isCol
      refine ⟨t * c.cols + k, by exact_mod_cast rfl, ?_⟩
      show (gathered values c.cols ids)[t * c.cols + k]? = some (join _
        ((loadAt c.low8 ((ids[t] : Int) * c.cols + k)).getD 0))
      rw [gathered_get values isId isCol, getD_eq_getElem?_getD, value _ isRow _ isCol,
        ← Nat.cast_mul, ← Nat.cast_add, loadAt_natCast, getD_eq_getElem?_getD,
        getD_eq_getElem?_getD]
      rfl
    · intro p lt
      rw [gathered_length] at lt
      have someCols : 0 < c.cols := Nat.pos_of_lt_mul_left lt
      have isId : p / c.cols < ids.length := (Nat.div_lt_iff_lt_mul someCols).mpr lt
      have isCol := Nat.mod_lt p someCols
      have isRow := inRange _ (getElem_mem isId)
      have place := Nat.div_add_mod p c.cols
      rw [Nat.mul_comm] at place
      obtain ⟨-, -, -, stores⟩ := lane _ isId
      have whole := length _ isRow
      have stored := (@mem_laneStores (c.places ids.length (p / c.cols : Nat) ids[p / c.cols])
        c.low8 (syms ids[p / c.cols]) _).mpr ⟨p % c.cols, by rwa [whole],
          decide_eq_true (by exact_mod_cast isId), rfl⟩
      rw [← stores] at stored
      have isLane : steps (p / c.cols) ∈ (range count).map steps :=
        mem_map.mpr ⟨_, mem_range.mpr (isId.trans_le enough), rfl⟩
      refine ⟨_, mem_storesOf.mpr ⟨_, isLane, stored⟩, ?_⟩
      show ((p / c.cols : Nat) : Int) * c.cols + (p % c.cols : Nat) = p
      exact_mod_cast place
  · obtain ⟨start, isStart, windows, -⟩ := lane t isId
    refine ⟨start, steps t, isStart, ?_, windows⟩
    rw [getElem?_map, getElem?_range (isId.trans_le enough)]
    rfl

theorem gather_agrees_iff (ok : c.Ok) (inRange : ∀ r ∈ ids, r < c.rows) {block k : Nat}
    (width : k ≤ 31) (isBlock : block = 2 ^ k) :
    GatherAgrees c ids block ↔ ids.length ≤ 2 ^ 31 ∧ c.Low ids := by
  constructor
  · rintro ⟨lanes, -, ended, -⟩
    exact gather_ended ok width isBlock ended
  · intro both
    exact gather_agrees ok inRange both.1 both.2 width isBlock

end Gather

end FreeToken.Df11
