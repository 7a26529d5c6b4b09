/-
**The cost model of the DSV4 pools, and the pool that it sizes.**
-/

import Mathlib.Data.NNRat.Floor

namespace FreeToken

/-! ### The sizes -/

/-- `round`: to the nearest integer, and to the even one of two. -/
def pyRound (q : ℚ≥0) : Nat :=
  let n := ⌊q⌋₊
  let middle : ℚ≥0 := (n + (n + 1) : Nat)
  if q + q < middle then n else if middle < q + q ∨ n % 2 = 1 then n + 1 else n

structure Dsv4Args where
  nLayers : Nat
  headDim : Nat
  indexHeadDim : Nat
  compressRatios : List Nat

variable (args : Dsv4Args)

/-- `tuple(args.compress_ratios)[: args.n_layers]`. -/
def Dsv4Args.ratios : List Nat := args.compressRatios.take args.nLayers

def ringSizeForRatio : Nat → Option Nat
  | 4 => some 8
  | 128 => some 128
  | _ => none

def kvBytes : Nat := args.headDim * 2
def indexBytes : Nat := args.indexHeadDim * 2
def stateBytes (ratio : Nat) : Nat := 2 * (1 + if ratio = 4 then 1 else 0) * args.headDim * 4
def idxStateBytes : Nat := 2 * 2 * args.indexHeadDim * 4

def dsv4CachePerPage (swaRatio : ℚ≥0) (P : Nat) : Option Nat := do
  let layers ← args.ratios.mapM fun ratio => do
    let window := pyRound (swaRatio * P) * kvBytes args
    if ratio = 0 then return window
    let ring ← ringSizeForRatio ratio
    let indexer := if ratio = 4 then
      P / 4 * indexBytes args + pyRound (swaRatio * 8) * idxStateBytes args else 0
    return window + P / ratio * kvBytes args + indexer +
      pyRound (swaRatio * ring) * stateBytes args ratio
  return layers.sum

/-- The entries of a layer in the five lists of `DSV4PoolSizes`. -/
structure TierSizes where
  cmpBlocks : Option Nat
  idxBlocks : Option Nat
  stateSlots : Option Nat
  ringSize : Option Nat
  idxStateSlots : Option Nat

structure DSV4PoolSizes where
  P : Nat
  swaRatio : ℚ≥0
  fullToken : Nat
  nWinSlots : Nat
  nWinPages : Nat
  layers : List TierSizes

def tierSizes (fullToken nWinPages ratio : Nat) : Option TierSizes :=
  if ratio = 0 then some ⟨none, none, none, none, none⟩
  else do
    let ring ← ringSizeForRatio ratio
    return {
      cmpBlocks := some (fullToken / ratio)
      idxBlocks := if ratio = 4 then some (fullToken / 4) else none
      stateSlots := some (nWinPages * ring)
      ringSize := some ring
      idxStateSlots := if ratio = 4 then some (nWinPages * 8) else none }

/-- The slots of every tier. -/
def dsv4PoolSizes (numPages : Nat) (args : Dsv4Args) (swaRatio : ℚ≥0) (P : Nat)
    (nWinPages : Option Nat) : Option DSV4PoolSizes := do
  let fullToken := numPages * P
  let nWinPages := min (nWinPages.getD ((pyRound (swaRatio * fullToken) + P - 1) / P)) numPages
  let layers ← args.ratios.mapM (tierSizes fullToken nWinPages)
  return ⟨P, swaRatio, fullToken, nWinPages * P, nWinPages, layers⟩

/-- A round of the loop of `dsv4_pool_bytes`. -/
def layerBytes (nScratch ratio : Nat) (tier : Option TierSizes) : Option Nat :=
  if ratio = 0 then some 0
  else do
    let tier ← tier
    let cmp := ((← tier.cmpBlocks) + nScratch) * kvBytes args
    let state := ((← tier.stateSlots) + 1) * stateBytes args ratio
    if ratio = 4 then
      let idx := ((← tier.idxBlocks) + nScratch) * indexBytes args
      return cmp + state + idx + ((← tier.idxStateSlots) + 1) * idxStateBytes args
    return cmp + state

def layersBytes (args : Dsv4Args) (nScratch : Nat) : List Nat → List TierSizes → Option Nat
  | [], _ => some 0
  | ratio :: ratios, tiers => do
      let layer ← layerBytes args nScratch ratio tiers.head?
      return layer + (← layersBytes args nScratch ratios tiers.tail)

/-- The bytes they cost. -/
def dsv4PoolBytes (sizes : DSV4PoolSizes) (args : Dsv4Args) (nScratch : Nat) : Option Nat := do
  let layers ← layersBytes args nScratch args.ratios sizes.layers
  return args.ratios.length * sizes.nWinSlots * kvBytes args + (sizes.fullToken + 1) * 8 + layers

/-! ### The buffers -/

structure Buffer where
  rows : Nat
  width : Nat
  elementSize : Nat

def Buffer.bytes (buffer : Buffer) : Nat := buffer.rows * buffer.width * buffer.elementSize

/-- The buffer of a `CompressStateRing`, with its scratch row. -/
def compressStateRing (nSlots : Nat) (overlap : Bool) (headDim : Nat) : Buffer :=
  ⟨nSlots + 1, 2 * ((1 + if overlap then 1 else 0) * headDim), 4⟩

structure LayerPools where
  cmpPool : Option Buffer
  idxPool : Option Buffer
  stateRing : Option Buffer
  indexerStateRing : Option Buffer

structure DSV4PagedKVCache where
  fullToWindow : Buffer
  windowPool : List Buffer
  layers : List LayerPools

namespace DSV4PagedKVCache

/-- A round of the loop of `_alloc_buffers`. -/
def allocLayer (nScratch ratio : Nat) (tier : Option TierSizes) : Option LayerPools :=
  if ratio = 0 then some ⟨none, none, none, none⟩
  else do
    let tier ← tier
    let cmp : Buffer := ⟨(← tier.cmpBlocks) + nScratch, args.headDim, 2⟩
    let state ← tier.stateSlots
    let _ring ← ringSizeForRatio ratio
    if ratio = 4 then
      let idx : Buffer := ⟨(← tier.idxBlocks) + nScratch, args.indexHeadDim, 2⟩
      let indexer := compressStateRing (← tier.idxStateSlots) true args.indexHeadDim
      return ⟨some cmp, some idx, some (compressStateRing state true args.headDim), some indexer⟩
    return ⟨some cmp, none, some (compressStateRing state false args.headDim), none⟩

def allocLayers (args : Dsv4Args) (nScratch : Nat) :
    List Nat → List TierSizes → Option (List LayerPools)
  | [], _ => some []
  | ratio :: ratios, tiers => do
      let layer ← allocLayer args nScratch ratio tiers.head?
      return layer :: (← allocLayers args nScratch ratios tiers.tail)

/-- `__init__` and `_alloc_buffers`. -/
def new (sizes : DSV4PoolSizes) (args : Dsv4Args) (P nScratch : Nat) : Option DSV4PagedKVCache :=
  if args.ratios.length = args.nLayers ∧ ∀ ratio ∈ args.ratios, ratio = 0 ∨ P % ratio = 0 then do
    return {
      fullToWindow := ⟨sizes.fullToken + 1, 1, 8⟩
      windowPool := List.replicate args.nLayers ⟨sizes.nWinSlots, args.headDim, 2⟩
      layers := ← allocLayers args nScratch args.ratios sizes.layers }
  else none

def layersTotal (layers : List LayerPools) : Nat :=
  let family (select : LayerPools → Option Buffer) : Nat :=
    ((layers.filterMap select).map Buffer.bytes).sum
  family LayerPools.cmpPool + family LayerPools.idxPool + family LayerPools.stateRing +
    family LayerPools.indexerStateRing

def totalBytes (pool : DSV4PagedKVCache) : Nat :=
  pool.fullToWindow.bytes + (pool.windowPool.map Buffer.bytes).sum + layersTotal pool.layers

theorem layersBytes_eq {args : Dsv4Args} {nScratch : Nat} {ratios : List Nat}
    {tiers : List TierSizes} {layers : List LayerPools}
    (built : allocLayers args nScratch ratios tiers = some layers) :
    layersBytes args nScratch ratios tiers = some (layersTotal layers) := by
  induction ratios generalizing tiers layers with
  | nil =>
    cases built
    rfl
  | cons ratio ratios ih =>
    rw [allocLayers] at built
    simp only [Option.bind_eq_bind, Option.bind_eq_some_iff] at built
    obtain ⟨layer, isLayer, rest, isRest, isCons⟩ := built
    cases isCons
    rw [layersBytes, ih isRest]
    unfold allocLayer at isLayer
    unfold layerBytes layersTotal
    split at isLayer
    · next zero =>
      cases isLayer
      simp [zero]
    · next compressed =>
      simp only [Option.bind_eq_bind, Option.bind_eq_some_iff] at isLayer
      obtain ⟨tier, isTier, cmp, isCmp, state, isState, ring, isRing, isLayer⟩ := isLayer
      split at isLayer
      · next four =>
        simp only [Option.bind_eq_some_iff] at isLayer
        obtain ⟨idx, isIdx, indexer, isIndexer, isLayer⟩ := isLayer
        cases isLayer
        simp [four, isTier, isCmp, isState, isIdx, isIndexer, Buffer.bytes, compressStateRing,
          kvBytes, indexBytes, stateBytes, idxStateBytes]
        ring
      · next other =>
        cases isLayer
        simp [compressed, other, isTier, isCmp, isState, Buffer.bytes, compressStateRing, kvBytes,
          stateBytes]
        ring

end DSV4PagedKVCache

/-- **The cost model agrees with the allocation.** -/
theorem dsv4PoolBytes_eq {sizes : DSV4PoolSizes} {args : Dsv4Args} {P nScratch : Nat}
    {pool : DSV4PagedKVCache} (built : DSV4PagedKVCache.new sizes args P nScratch = some pool) :
    dsv4PoolBytes sizes args nScratch = some pool.totalBytes := by
  unfold DSV4PagedKVCache.new at built
  split at built
  · next asserted =>
    obtain ⟨layers, isLayers, isPool⟩ := Option.bind_eq_some_iff.mp built
    cases isPool
    unfold dsv4PoolBytes
    rw [DSV4PagedKVCache.layersBytes_eq isLayers]
    simp [DSV4PagedKVCache.totalBytes, Buffer.bytes, asserted.1, kvBytes]
    ring
  · cases built

/-- The pool of two window pages and four pages, for one layer with an indexer. -/
theorem dsv4PoolBytes_eq_indexer : ∃ pool, DSV4PagedKVCache.new
        ⟨128, 1, 512, 256, 2, [⟨some 128, some 128, some 16, some 8, some 16⟩]⟩
        ⟨1, 8, 2, [4]⟩ 128 1 = some pool ∧
      dsv4PoolBytes ⟨128, 1, 512, 256, 2, [⟨some 128, some 128, some 16, some 8, some 16⟩]⟩
        ⟨1, 8, 2, [4]⟩ 1 = some pool.totalBytes :=
  ⟨_, rfl, dsv4PoolBytes_eq (P := 128) rfl⟩

/-! ### The search -/

section Search

/-- The doubling of `hi`, as long as it fits. -/
def doubleHi (fits : Nat → Bool) : Nat → Nat → Option Nat
  | 0, _ => none
  | rounds + 1, hi => if fits hi then doubleHi fits rounds (hi * 2) else some hi

def bisect (fits : Nat → Bool) : Nat → Nat → Nat → Option Nat
  | 0, _, _ => none
  | rounds + 1, lo, hi =>
      if lo < hi - 1 then
        if fits ((lo + hi) / 2) then bisect fits rounds ((lo + hi) / 2) hi
        else bisect fits rounds lo ((lo + hi) / 2)
      else some lo

variable {fits : Nat → Bool} {cutoff : Nat}

theorem doubleHi_spec (isCutoff : ∀ n, fits n ↔ n ≤ cutoff) (rounds : Nat) {hi : Nat}
    (pos : 0 < hi) (enough : cutoff < hi + rounds) :
    ∃ last, cutoff < last ∧ ∀ more, rounds ≤ more → doubleHi fits (more + 1) hi = some last := by
  induction rounds generalizing hi with
  | zero =>
    have unfit : ¬fits hi := fun fit => absurd ((isCutoff hi).mp fit) (by omega)
    exact ⟨hi, by omega, fun more _ => if_neg unfit⟩
  | succ rounds ih =>
    by_cases fit : fits hi
    · obtain ⟨last, above, ends⟩ := @ih (hi * 2) (by omega) (by omega)
      refine ⟨last, above, fun more enough => ?_⟩
      obtain ⟨more, rfl⟩ := Nat.exists_eq_add_of_le' (Nat.one_le_of_lt enough)
      exact (if_pos fit).trans (ends more (by omega))
    · refine ⟨hi, Nat.lt_of_not_le fun below => fit ((isCutoff hi).mpr below), fun more _ => ?_⟩
      exact if_neg fit

theorem bisect_spec (isCutoff : ∀ n, fits n ↔ n ≤ cutoff) (rounds : Nat) {lo hi : Nat}
    (low : lo ≤ cutoff) (high : cutoff < hi) (enough : hi ≤ lo + rounds) :
    bisect fits rounds lo hi = some cutoff := by
  induction rounds generalizing lo hi with
  | zero => omega
  | succ rounds ih =>
    rw [bisect]
    split
    · split
      · next fit => exact ih ((isCutoff _).mp fit) high (by omega)
      · next unfit =>
        exact ih low (Nat.lt_of_not_le fun below => unfit ((isCutoff _).mpr below)) (by omega)
    · exact congrArg some (by omega)

theorem exists_cutoff {low bound : Nat} (down : ∀ a b, a ≤ b → fits b → fits a) (fit : fits low)
    (unfit : ¬fits bound) : ∃ cutoff, low ≤ cutoff ∧ ∀ n, fits n ↔ n ≤ cutoff := by
  have some_ : ∃ n, ¬fits n := ⟨bound, unfit⟩
  have least : ∀ n, fits n ↔ n < Nat.find some_ := fun n => by
    refine ⟨fun fit => Nat.lt_of_not_le fun above => Nat.find_spec some_ (down _ n above fit), ?_⟩
    exact fun below => not_not.mp (Nat.find_min some_ below)
  refine ⟨Nat.find some_ - 1, ?_, fun n => (least n).trans ?_⟩
  · exact Nat.le_sub_one_of_lt ((least low).mp fit)
  · have pos := (least low).mp fit
    omega

end Search

/-- The arguments of `dsv4_solve_num_pages` besides the budget. -/
structure Dsv4Solve where
  args : Dsv4Args
  swaRatio : ℚ≥0
  floorWinPages : Nat
  P : Nat
  nScratch : Nat
  /-- Asserted by `dsv4_cache_per_page`. -/
  positive : 0 < P

namespace Dsv4Solve

variable (self : Dsv4Solve) (available : Int) (num : Nat)

def sizes : Option DSV4PoolSizes :=
  let win := max self.floorWinPages ((pyRound (self.swaRatio * num * self.P) + self.P - 1) / self.P)
  dsv4PoolSizes num self.args self.swaRatio self.P (some win)

def bytes : Option Nat := do dsv4PoolBytes (← self.sizes num) self.args self.nScratch

def fits : Bool := (self.bytes num).any fun bytes : Nat => (bytes : Int) ≤ available

/-- `dsv4_solve_num_pages`, with so many rounds for each loop. The inner result is none where it
raises. The ring sizes are the same for all numbers of pages: behind the first test they do not. -/
def dsv4SolveNumPages (rounds : Nat) : Option (Option DSV4PoolSizes) :=
  let lo := max self.floorWinPages 2
  if self.fits available lo then do
    let perPage := (dsv4CachePerPage self.args 0 self.P).getD 0
    let hi ← doubleHi (self.fits available) rounds (max lo (available / max 1 perPage).toNat)
    return self.sizes (← bisect (self.fits available) rounds lo hi)
  else some none

end Dsv4Solve

theorem pyRound_mono {x y : ℚ≥0} (le : x ≤ y) : pyRound x ≤ pyRound y := by
  have floors := Nat.floor_mono le
  unfold pyRound
  dsimp only
  rcases lt_or_eq_of_le floors with less | same
  · split_ifs <;> omega
  · rw [← same]
    have twice := add_le_add le le
    generalize ((⌊x⌋₊ + (⌊x⌋₊ + 1) : Nat) : ℚ≥0) = middle
    by_cases low : y + y < middle
    · rw [if_pos low, if_pos (twice.trans_lt low)]
    · rw [if_neg low]
      by_cases up : middle < y + y ∨ ⌊x⌋₊ % 2 = 1
      · rw [if_pos up]
        split_ifs <;> omega
      · rw [if_neg up]
        split_ifs with _ above
        · exact le_rfl
        · exact absurd (above.imp_left fun half => half.trans_le twice) up
        · exact le_rfl

section Monotone

variable {args : Dsv4Args} {nScratch : Nat}

theorem layerBytes_mono {full full' win win' ratio : Nat} (fewer : full ≤ full')
    (less : win ≤ win') {tier' : TierSizes} {bytes' : Nat}
    (sized : tierSizes full' win' ratio = some tier')
    (cost : layerBytes args nScratch ratio (some tier') = some bytes') :
    ∃ tier bytes, tierSizes full win ratio = some tier ∧
      layerBytes args nScratch ratio (some tier) = some bytes ∧ bytes ≤ bytes' := by
  obtain rfl | ring : ratio = 0 ∨ ∃ ring, ringSizeForRatio ratio = some ring := by
    unfold tierSizes at sized
    split at sized
    · next zero => exact .inl zero
    · obtain ⟨ring, isRing, -⟩ := Option.bind_eq_some_iff.mp sized
      exact .inr ⟨ring, isRing⟩
  · exact ⟨_, 0, rfl, rfl, Nat.zero_le _⟩
  obtain ⟨ring, isRing⟩ := ring
  have cmp := Nat.mul_le_mul_right (kvBytes args)
    (Nat.add_le_add_right (Nat.div_le_div_right (c := ratio) fewer) nScratch)
  have state := Nat.mul_le_mul_right (stateBytes args ratio)
    (Nat.add_le_add_right (Nat.mul_le_mul_right ring less) 1)
  unfold ringSizeForRatio at isRing
  split at isRing
  · cases isRing
    cases sized
    cases cost
    have idx := Nat.mul_le_mul_right (indexBytes args)
      (Nat.add_le_add_right (Nat.div_le_div_right (c := 4) fewer) nScratch)
    have idxState := Nat.mul_le_mul_right (idxStateBytes args)
      (Nat.add_le_add_right (Nat.mul_le_mul_right 8 less) 1)
    exact ⟨_, _, rfl, rfl, Nat.add_le_add (Nat.add_le_add (Nat.add_le_add cmp state) idx) idxState⟩
  · cases isRing
    cases sized
    cases cost
    exact ⟨_, _, rfl, rfl, Nat.add_le_add cmp state⟩
  · cases isRing

theorem layersBytes_mono {full full' win win' : Nat} (fewer : full ≤ full') (less : win ≤ win')
    (ratios : List Nat) {tiers' : List TierSizes} {bytes' : Nat}
    (sized : ratios.mapM (tierSizes full' win') = some tiers')
    (cost : layersBytes args nScratch ratios tiers' = some bytes') :
    ∃ tiers bytes, ratios.mapM (tierSizes full win) = some tiers ∧
      layersBytes args nScratch ratios tiers = some bytes ∧ bytes ≤ bytes' := by
  induction ratios generalizing tiers' bytes' with
  | nil => exact ⟨[], 0, rfl, rfl, Nat.zero_le _⟩
  | cons ratio ratios ih =>
    rw [List.mapM_cons] at sized ⊢
    simp only [Option.bind_eq_bind, Option.bind_eq_some_iff] at sized
    obtain ⟨tier', isTier', rest', isRest', isCons⟩ := sized
    cases isCons
    rw [layersBytes] at cost
    simp only [Option.bind_eq_bind, Option.bind_eq_some_iff] at cost
    obtain ⟨layer', isLayer', later', isLater', isSum⟩ := cost
    cases isSum
    obtain ⟨tier, layer, isTier, isLayer, below⟩ := layerBytes_mono fewer less isTier' isLayer'
    obtain ⟨rest, later, isRest, isLater, below_⟩ := ih isRest' isLater'
    refine ⟨tier :: rest, layer + later, ?_, ?_, Nat.add_le_add below below_⟩
    · rw [isTier, isRest]
      rfl
    · change (layerBytes args nScratch ratio (some tier)).bind (fun layer =>
        (layersBytes args nScratch ratios rest).bind fun later => some (layer + later)) = _
      rw [isLayer, isLater]
      rfl

end Monotone

namespace Dsv4Solve

variable {self : Dsv4Solve}

theorem bytes_mono {a b bytes' : Nat} (le : a ≤ b) (cost : self.bytes b = some bytes') :
    ∃ bytes, self.bytes a = some bytes ∧ bytes ≤ bytes' := by
  unfold bytes sizes dsv4PoolSizes dsv4PoolBytes at *
  simp only [Option.bind_eq_bind, Option.bind_eq_some_iff, Option.getD_some] at cost
  obtain ⟨sizes', ⟨tiers', sized, isSizes⟩, layers', isLayers, isBytes⟩ := cost
  cases isSizes
  cases isBytes
  have product : self.swaRatio * a * self.P ≤ self.swaRatio * b * self.P := by gcongr
  have window := Nat.div_le_div_right (c := self.P)
    (Nat.sub_le_sub_right (Nat.add_le_add_right (pyRound_mono product) self.P) 1)
  have tokens := Nat.mul_le_mul_right self.P le
  have pages := min_le_min (max_le_max (le_refl self.floorWinPages) window) le
  obtain ⟨tiers, layers, isTiers, isCost, below⟩ := layersBytes_mono tokens pages _ sized isLayers
  refine ⟨_, ?_, Nat.add_le_add (Nat.add_le_add (Nat.mul_le_mul_right (kvBytes self.args)
    (Nat.mul_le_mul_left self.args.ratios.length (Nat.mul_le_mul_right self.P pages)))
    (Nat.mul_le_mul_right 8 (Nat.add_le_add_right tokens 1))) below⟩
  simp only [Option.getD_some, isTiers, Option.bind_eq_bind, Option.bind_some, Option.pure_def,
    isCost]

theorem lt_bytes {num cost : Nat} (isCost : self.bytes num = some cost) : num < cost := by
  unfold bytes sizes dsv4PoolSizes dsv4PoolBytes at isCost
  simp only [Option.bind_eq_bind, Option.bind_eq_some_iff] at isCost
  obtain ⟨sizes, ⟨tiers, -, isSizes⟩, layers, -, isBytes⟩ := isCost
  cases isSizes
  cases isBytes
  have tokens := Nat.le_mul_of_pos_right num self.positive
  dsimp only
  omega

theorem fits_iff {available : Int} {num : Nat} : self.fits available num ↔
    ∃ bytes, self.bytes num = some bytes ∧ (bytes : Int) ≤ available := by
  unfold fits
  rw [Option.any_eq_true]
  simp only [decide_eq_true_eq]

/-- **The search ends.** It raises exactly if the least geometry does not fit, and else it returns the
sizes of the most pages that fit; the bytes grow with the pages. -/
theorem dsv4SolveNumPages_largest (self : Dsv4Solve) (available : Int) :
    ∃ least res, (∀ rounds ≥ least, self.dsv4SolveNumPages available rounds = some res) ∧
      (res = none ↔ ¬self.fits available (max self.floorWinPages 2)) ∧
      (∀ sizes, res = some sizes → ∃ num ≥ max self.floorWinPages 2,
        self.sizes num = some sizes ∧ IsGreatest {num | self.fits available num} num) ∧
      ∀ a b bytes', a ≤ b → self.bytes b = some bytes' →
        ∃ bytes, self.bytes a = some bytes ∧ bytes ≤ bytes' := by
  by_cases fit : self.fits available (max self.floorWinPages 2)
  · have down : ∀ a b, a ≤ b → self.fits available b → self.fits available a := fun a b le fit => by
      obtain ⟨bytes', cost, within⟩ := fits_iff.mp fit
      obtain ⟨bytes, less, below⟩ := bytes_mono le cost
      exact fits_iff.mpr ⟨bytes, less, by omega⟩
    have unfit : ¬self.fits available available.toNat := fun fit => by
      obtain ⟨bytes, cost, within⟩ := fits_iff.mp fit
      have above := lt_bytes cost
      omega
    obtain ⟨cutoff, low, isCutoff⟩ := exists_cutoff down fit unfit
    have isMost := (isCutoff cutoff).mpr le_rfl
    obtain ⟨last, high, doubled⟩ := @doubleHi_spec _ cutoff isCutoff cutoff
      (max (max self.floorWinPages 2)
        (available / max 1 ((dsv4CachePerPage self.args 0 self.P).getD 0 : Nat)).toNat)
      (by omega) (by omega)
    obtain ⟨bytes, cost, -⟩ := fits_iff.mp isMost
    obtain ⟨sizes, isSizes, -⟩ := Option.bind_eq_some_iff.mp cost
    refine ⟨cutoff + last + 1, some sizes, fun rounds enough => ?_, by simp [fit], ?_,
      fun _ _ _ => bytes_mono⟩
    · obtain ⟨more, rfl⟩ := Nat.exists_eq_add_of_le' (Nat.one_le_of_lt enough)
      refine (if_pos fit).trans ?_
      refine (congrArg (Option.bind · _) (doubled more (by omega))).trans ?_
      refine (congrArg (Option.bind · _) (bisect_spec isCutoff (more + 1) low high (by omega))).trans ?_
      exact congrArg some isSizes
    · intro other same
      cases same
      exact ⟨cutoff, low, isSizes, isMost, fun num => (isCutoff num).mp⟩
  · refine ⟨0, none, fun rounds _ => if_neg fit, by simp [fit], fun sizes impossible => ?_,
      fun _ _ _ => bytes_mono⟩
    cases impossible

end Dsv4Solve

end FreeToken
