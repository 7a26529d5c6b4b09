/-
**No stale hit, over whole runs.**

Four writers share one map: the LRU kernel, the hybrid kernel, the materialisation of a layer and the
prefill double buffer. Each one, followed by its copy, keeps `Coherent`.
-/

import FreeToken.Moe.HybridFetch

namespace FreeToken

open SlotMap List Function

namespace OffloadMoeCache

variable {Bank Bytes : Type} {cfg : OffloadConfig Bank Bytes}
  {cache : OffloadMoeCache Bank Bytes}

/-! ### A whole layer -/

theorem sameLayer_iff {base slot : Nat} : cache.sameLayer cfg base slot = true ↔
    slot < cache.cacheSize ∧ ∃ id, cache.idOfSlot slot = some id ∧ base ≤ id ∧
      id < base + cfg.numExperts := by
  simp [sameLayer, Option.any_eq_true]

theorem mem_oldIds {base id : Nat} : id ∈ ((List.range cfg.numExperts).filter fun slot =>
        !cache.sameLayer cfg base slot).filterMap cache.idOfSlot ↔
      ∃ slot < cfg.numExperts, cache.sameLayer cfg base slot = false ∧
        cache.idOfSlot slot = some id := by
  simp [and_assoc]

theorem Coherent.materialize_inverse (coherent : Coherent cfg cache) (layerId : Nat) :
    (cache.materializeLayer cfg layerId).map.Inverse := by
  intro id slot
  simp only [OffloadMoeCache.map, materializeLayer, storeConst]
  generalize cfg.base layerId = base
  have both := coherent.inverse
  by_cases inLayer : base ≤ id ∧ id < base + cfg.numExperts
  · rw [if_pos inLayer]
    by_cases first : slot < cfg.numExperts
    · rw [if_pos first, Option.some.injEq, Option.some.injEq]
      omega
    · rw [if_neg first, Option.some.injEq]
      refine iff_of_false (by omega) fun held => ?_
      split at held
      · cases held
      · next other =>
        exact other (sameLayer_iff.mpr ⟨(coherent.bounds slot id held).1, id, held, inLayer⟩)
  · rw [if_neg inLayer]
    by_cases first : slot < cfg.numExperts
    · rw [if_pos first, Option.some.injEq]
      refine iff_of_false (fun kept => ?_) (by omega)
      split at kept
      · cases kept
      · next stays =>
        have held : cache.idOfSlot slot = some id := (both id slot).mp kept
        refine stays (mem_oldIds.mpr ⟨slot, first, Bool.eq_false_iff.mpr fun same => ?_, held⟩)
        obtain ⟨_, other, otherHeld, bounds⟩ := sameLayer_iff.mp same
        rw [held] at otherHeld
        cases otherHeld
        exact inLayer bounds
    · rw [if_neg first]
      by_cases same : cache.sameLayer cfg base slot = true
      · rw [if_pos same]
        refine iff_of_false (fun kept => ?_) (by simp)
        split at kept
        · cases kept
        · obtain ⟨_, other, otherHeld, bounds⟩ := sameLayer_iff.mp same
          have held : cache.idOfSlot slot = some id := (both id slot).mp kept
          rw [held] at otherHeld
          cases otherHeld
          exact inLayer bounds
      · rw [if_neg same]
        have here : cache.slotForId id = some slot ↔ cache.idOfSlot slot = some id := both id slot
        split
        · next driven =>
          obtain ⟨old, oldFirst, _, oldHeld⟩ := mem_oldIds.mp driven
          refine iff_of_false (by simp) fun held => ?_
          have twice := ((both id old).mpr oldHeld).symm.trans ((both id slot).mpr held)
          exact first (Option.some.inj twice ▸ oldFirst)
        · exact here

theorem materialize_rows (size : cfg.numExperts ≤ cache.cacheSize) {layerId : Nat}
    {copied : OffloadMoeCache Bank Bytes}
    (run : copyMissing cfg (cache.materializeLayer cfg layerId) = .ok copied) :
    copied = { cache.materializeLayer cfg layerId with bankCaches := copied.bankCaches } ∧
      ∀ slot, copied.bankCaches slot = if slot < cfg.numExperts then cfg.bankSources layerId slot
        else cache.bankCaches slot := by
  unfold copyMissing at run
  simp only [materializeLayer, if_true] at run
  split at run
  · cases run
    exact ⟨rfl, fun slot => rfl⟩
  · cases run
    refine ⟨rfl, fun slot => ?_⟩
    have rows : stagedRows cfg (cache.materializeLayer cfg layerId) =
        (range cfg.numExperts).map fun expert => (expert, expert) := by
      unfold stagedRows materializeLayer
      simp only
      have pairs := map_prod_left_eq_zip (l := range cfg.numExperts) (f := id)
      rw [map_id] at pairs
      rw [← pairs]
      refine filter_eq_self.mpr fun staged mem => ?_
      obtain ⟨expert, lt, rfl⟩ := mem_map.mp mem
      have bound := mem_range.mp lt
      exact decide_eq_true ⟨bound.trans_le size, bound⟩
    have indices : (((range cfg.numExperts).map fun expert => (expert, expert)).map
        fun staged => (staged.1, cfg.bankSources layerId staged.2)).map Prod.fst =
        range cfg.numExperts := by
      simp [comp_def]
    show scatter cache.bankCaches ((stagedRows cfg (cache.materializeLayer cfg layerId)).map
      _) slot = _
    rw [rows]
    by_cases first : slot < cfg.numExperts
    · rw [if_pos first]
      have nodup := @nodup_range cfg.numExperts
      rw [← indices] at nodup
      have mem : (slot, cfg.bankSources layerId slot) ∈
          ((range cfg.numExperts).map fun expert => (expert, expert)).map
            fun staged => (staged.1, cfg.bankSources layerId staged.2) := by
        simp only [map_map, mem_map, mem_range, comp_apply]
        exact ⟨slot, first, rfl⟩
      exact scatter_of_mem _ cache.bankCaches nodup mem
    · rw [if_neg first]
      refine scatter_of_notMem _ _ ?_
      rw [indices, mem_range]
      exact first

theorem Coherent.materializeLayer (coherent : Coherent cfg cache) {layerId : Nat}
    (layer : layerId < cfg.numLayers) {copied : OffloadMoeCache Bank Bytes}
    (run : copyMissing cfg (cache.materializeLayer cfg layerId) = .ok copied) :
    Coherent cfg copied := by
  obtain ⟨frame, rows⟩ := materialize_rows coherent.size run
  have held : ∀ slot id, copied.idOfSlot slot = some id →
      (slot < cfg.numExperts ∧ id = cfg.base layerId + slot) ∨
        ¬ slot < cfg.numExperts ∧ cache.idOfSlot slot = some id := by
    intro slot id mapped
    rw [frame] at mapped
    simp only [OffloadMoeCache.materializeLayer] at mapped
    by_cases first : slot < cfg.numExperts
    · rw [if_pos first] at mapped
      exact Or.inl ⟨first, (Option.some.inj mapped).symm⟩
    · rw [if_neg first] at mapped
      split at mapped
      · cases mapped
      · exact Or.inr ⟨first, mapped⟩
  constructor
  · rw [frame]
    exact coherent.materialize_inverse layerId
  · intro slot id mapped
    rw [show copied.cacheSize = cache.cacheSize by rw [frame]; rfl]
    rcases held slot id mapped with ⟨first, rfl⟩ | ⟨_, old⟩
    · exact ⟨first.trans_le coherent.size, id_lt layer first⟩
    · exact coherent.bounds slot id old
  · intro slot id mapped
    rw [rows slot]
    rcases held slot id mapped with ⟨first, rfl⟩ | ⟨later, old⟩
    · rw [if_pos first, row_base first]
    · rw [if_neg later]
      exact coherent.rows slot id old
  · intro slot
    rw [frame]
    simp only [OffloadMoeCache.materializeLayer]
    have old := coherent.clock slot
    split
    · exact le_rfl
    · split <;> omega
  · rw [frame]
    exact coherent.size
  · intro enabled
    rw [frame] at enabled ⊢
    exact coherent.overlap enabled

/-! ### The double buffer -/

theorem invalidate_map (inverse : cache.map.Inverse) (bufferId : Nat) :
    (invalidatePrefillBuffer cfg cache bufferId).map =
      cache.map.forget (inBuffer cfg bufferId) := by
  have slots : ∀ slot, slot ∈ (range cfg.numExperts).map
      (bufferId * cfg.numExperts + ·) ↔ inBuffer cfg bufferId slot = true := by
    intro slot
    simp only [inBuffer, mem_map, mem_range, decide_eq_true_iff]
    constructor
    · rintro ⟨offset, bound, rfl⟩
      omega
    · intro lt
      exact ⟨slot - bufferId * cfg.numExperts, by omega, by omega⟩
  refine SlotMap.ext (funext fun id => ?_) (funext fun slot => ?_)
  · simp only [OffloadMoeCache.map, invalidatePrefillBuffer, storeConst, forget]
    rcases mapped : cache.slotForId id with _ | slot
    · rw [Option.filter_none, ite_self]
    · have held : cache.idOfSlot slot = some id := (inverse id slot).mp mapped
      have only : id ∈ ((range cfg.numExperts).map
          (bufferId * cfg.numExperts + ·)).filterMap cache.idOfSlot ↔
            inBuffer cfg bufferId slot = true := by
        rw [mem_filterMap]
        refine ⟨?_, fun lt => ⟨slot, (slots slot).mpr lt, held⟩⟩
        rintro ⟨other, mem, otherHeld⟩
        have lt := (slots other).mp mem
        have same := mapped.symm.trans ((inverse id other).mpr otherHeld)
        exact Option.some.inj same ▸ lt
      by_cases lt : inBuffer cfg bufferId slot = true
      · rw [if_pos (only.mpr lt), Option.filter_some, lt]
        rfl
      · rw [if_neg fun found => lt (only.mp found), Option.filter_some, Bool.eq_false_iff.mpr lt]
        rfl
  · simp only [OffloadMoeCache.map, invalidatePrefillBuffer, storeConst, forget, slots]

theorem Coherent.fillBuffer (coherent : Coherent cfg cache) (bufferId : Nat)
    {filled : OffloadMoeCache Bank Bytes}
    (arrays : filled.map = (invalidatePrefillBuffer cfg cache bufferId).map)
    (usage : filled.usage = (invalidatePrefillBuffer cfg cache bufferId).usage)
    (frame : filled.cacheSize = cache.cacheSize ∧ filled.prefillOverlap = cache.prefillOverlap ∧
      filled.step = cache.step)
    (outside : ∀ slot, inBuffer cfg bufferId slot = false →
      filled.bankCaches slot = cache.bankCaches slot) :
    Coherent cfg filled := by
  rw [invalidate_map coherent.inverse] at arrays
  have held : ∀ slot id, filled.idOfSlot slot = some id →
      inBuffer cfg bufferId slot = false ∧ cache.idOfSlot slot = some id := by
    intro slot id mapped
    have mapped : filled.map.keyOf slot = some id := mapped
    rw [arrays] at mapped
    simp only [forget] at mapped
    split at mapped
    · cases mapped
    · next other => exact ⟨Bool.eq_false_iff.mpr other, mapped⟩
  constructor
  · rw [arrays]
    exact coherent.inverse.forget _
  · intro slot id mapped
    rw [frame.1]
    exact coherent.bounds slot id (held slot id mapped).2
  · intro slot id mapped
    obtain ⟨apart, old⟩ := held slot id mapped
    rw [outside slot apart]
    exact coherent.rows slot id old
  · intro slot
    rw [usage, frame.2.2]
    simp only [invalidatePrefillBuffer, storeConst]
    split
    · exact Nat.zero_le _
    · exact coherent.clock slot
  · rw [frame.1]
    exact coherent.size
  · rw [frame.1, frame.2.1]
    exact coherent.overlap

theorem Coherent.prefetchPrefillLayer (coherent : Coherent cfg cache) {layerId : Nat}
    {after : OffloadMoeCache Bank Bytes}
    (run : prefetchPrefillLayer cfg cache layerId = .ok after) : Coherent cfg after := by
  unfold OffloadMoeCache.prefetchPrefillLayer at run
  split at run
  · exact Except.ok.inj run ▸ coherent
  simp only at run
  split at run
  · exact Except.ok.inj run ▸ coherent
  rcases free : ensure (cache.prefillBufferLayer (layerId % 2) = none ∨
      cache.prefillBufferReleased (layerId % 2))
      "Prefill overlap buffer is being reused before release" with error | done
  · rw [free] at run
    cases run
  rw [free] at run
  cases run
  refine coherent.fillBuffer (layerId % 2) ?_ ?_ ?_ ?_
  · split <;> rfl
  · split <;> rfl
  · split <;> exact ⟨rfl, rfl, rfl⟩
  · intro slot apart
    split
    · funext bank
      simp [prefetchSplit, copyRows, gatherHits, invalidatePrefillBuffer, apart]
    · funext bank
      simp [copyRows, invalidatePrefillBuffer, apart]

/-! ### Cold starts -/

theorem coherent_of_empty (cold : cache.map = SlotMap.empty) (unused : cache.usage = fun _ => 0)
    (size : cfg.numExperts ≤ cache.cacheSize)
    (overlap : cache.prefillOverlap = true → 2 * cfg.numExperts ≤ cache.cacheSize) :
    Coherent cfg cache := by
  have never : ∀ slot id, cache.idOfSlot slot ≠ some id := by
    intro slot id held
    have held : cache.map.keyOf slot = some id := held
    rw [cold] at held
    cases held
  refine ⟨cold ▸ inverse_empty, fun slot id held => absurd held (never slot id),
    fun slot id held => absurd held (never slot id), fun slot => ?_, size, overlap⟩
  rw [unused]
  exact Nat.zero_le _

theorem validateRebuild_size {cacheSize : Nat} {done : Unit}
    (valid : cfg.validateRebuild cacheSize = .ok done) : cfg.numExperts ≤ cacheSize := by
  unfold OffloadConfig.validateRebuild at valid
  split at valid
  · cases valid
  · omega

theorem coherent_init {zeroRow : Bank → Bytes} {cacheSize : Nat} {prefillOverlap : Bool}
    (built : init cfg zeroRow cacheSize prefillOverlap = .ok cache) :
    Coherent cfg cache := by
  unfold init at built
  rcases valid : cfg.validateRebuild cacheSize with error | done
  · rw [valid] at built
    cases built
  rw [valid] at built
  rcases fits : ensure (prefillOverlap = false ∨ 2 * cfg.numExperts ≤ cacheSize) _
    with error | done
  · rw [fits] at built
    cases built
  rw [fits] at built
  cases built
  refine coherent_of_empty rfl rfl (validateRebuild_size valid) fun enabled => ?_
  exact (ensure_ok fits).resolve_left fun disabled => by rw [disabled] at enabled; cases enabled

theorem Coherent.rebuild {zeroRow : Bank → Bytes} {cacheSize : Nat}
    {after : OffloadMoeCache Bank Bytes}
    (run : rebuild cfg zeroRow cache cacheSize = .ok after) : Coherent cfg after := by
  unfold OffloadMoeCache.rebuild at run
  rcases valid : cfg.validateRebuild cacheSize with error | done
  · rw [valid] at run
    cases run
  rw [valid] at run
  cases run
  refine coherent_of_empty rfl rfl (validateRebuild_size valid) fun enabled => ?_
  have fits := (Bool.and_eq_true_iff.mp enabled).2
  rw [Bool.not_eq_true', decide_eq_false_iff_not, not_lt] at fits
  exact fits

theorem Coherent.reset (coherent : Coherent cfg cache) : Coherent cfg cache.reset :=
  coherent_of_empty rfl rfl coherent.size coherent.overlap

theorem Coherent.beginPrefill (coherent : Coherent cfg cache) :
    Coherent cfg (beginPrefill cfg cache) := by
  unfold OffloadMoeCache.beginPrefill
  split
  · exact ⟨coherent.inverse, coherent.bounds, coherent.rows, coherent.clock, coherent.size,
      coherent.overlap⟩
  · exact coherent

theorem Coherent.releasePrefillLayer (coherent : Coherent cfg cache) (layerId : Nat) :
    Coherent cfg (releasePrefillLayer cache layerId) := by
  unfold OffloadMoeCache.releasePrefillLayer
  split
  · exact coherent
  · exact ⟨coherent.inverse, coherent.bounds, coherent.rows, coherent.clock, coherent.size,
      coherent.overlap⟩

/-! ### Any sequence -/

/-- One operation, with its copy. The ids of a step come from the router. -/
inductive Step (lru : LruEnsure) (cfg : OffloadConfig Bank Bytes) (zeroRow : Bank → Bytes) :
    OffloadMoeCache Bank Bytes → OffloadMoeCache Bank Bytes → Prop where
  | ensureExperts (cache : OffloadMoeCache Bank Bytes) (layerId : Nat) (expertIds : List Nat)
      (layer : layerId < cfg.numLayers)
      (routed : ∀ expert ∈ expertIds, expert < cfg.numExperts)
      (copied : OffloadMoeCache Bank Bytes)
      (run : copyMissing cfg (ensureExperts lru cfg cache layerId expertIds).1 = .ok copied) :
      Step lru cfg zeroRow cache copied
  | ensureExpertsHybrid (cache : OffloadMoeCache Bank Bytes) (layerId : Nat) (expertIds : List Nat)
      (layer : layerId < cfg.numLayers)
      (routed : ∀ expert ∈ expertIds, expert < cfg.numExperts)
      (copied : OffloadMoeCache Bank Bytes)
      (run : copyMissing cfg (ensureExpertsHybrid cfg cache layerId expertIds).1 = .ok copied) :
      Step lru cfg zeroRow cache copied
  | materializeLayer (cache : OffloadMoeCache Bank Bytes) (layerId : Nat)
      (layer : layerId < cfg.numLayers) (copied : OffloadMoeCache Bank Bytes)
      (run : copyMissing cfg (cache.materializeLayer cfg layerId) = .ok copied) :
      Step lru cfg zeroRow cache copied
  | beginPrefill (cache : OffloadMoeCache Bank Bytes) :
      Step lru cfg zeroRow cache (beginPrefill cfg cache)
  | prefetchPrefillLayer (cache : OffloadMoeCache Bank Bytes) (layerId : Nat)
      (after : OffloadMoeCache Bank Bytes)
      (run : prefetchPrefillLayer cfg cache layerId = .ok after) :
      Step lru cfg zeroRow cache after
  | releasePrefillLayer (cache : OffloadMoeCache Bank Bytes) (layerId : Nat) :
      Step lru cfg zeroRow cache (releasePrefillLayer cache layerId)
  | reset (cache : OffloadMoeCache Bank Bytes) : Step lru cfg zeroRow cache cache.reset
  | rebuild (cache : OffloadMoeCache Bank Bytes) (cacheSize : Nat)
      (after : OffloadMoeCache Bank Bytes)
      (run : rebuild cfg zeroRow cache cacheSize = .ok after) :
      Step lru cfg zeroRow cache after

/-- Any sequence of operations from an empty cache. -/
inductive Reachable (lru : LruEnsure) (cfg : OffloadConfig Bank Bytes) (zeroRow : Bank → Bytes) :
    OffloadMoeCache Bank Bytes → Prop where
  | init {cacheSize : Nat} {prefillOverlap : Bool} {cache : OffloadMoeCache Bank Bytes} :
      init cfg zeroRow cacheSize prefillOverlap = .ok cache →
      Reachable lru cfg zeroRow cache
  | step {cache next : OffloadMoeCache Bank Bytes} : Reachable lru cfg zeroRow cache →
      Step lru cfg zeroRow cache next → Reachable lru cfg zeroRow next

def Reads (cfg : OffloadConfig Bank Bytes) (copied : OffloadMoeCache Bank Bytes) (layerId : Nat)
    (expertIds : List Nat) (rewritten : List (Option Nat)) : Prop :=
  rewritten.length = expertIds.length ∧ ∀ (i slot : Nat), rewritten[i]? = some (some slot) →
      ∃ expert, expertIds[i]? = some expert ∧
        copied.bankCaches slot = cfg.bankSources layerId expert

theorem Coherent.reads {copied : OffloadMoeCache Bank Bytes} (coherent : Coherent cfg copied)
    (layerId : Nat) {expertIds : List Nat}
    (routed : ∀ expert ∈ expertIds, expert < cfg.numExperts) :
    Reads cfg copied layerId expertIds
      (rewriteIds copied.slotForId (cfg.base layerId) expertIds) := by
  refine ⟨length_map _, fun i slot rewritten => ?_⟩
  rw [rewriteIds, getElem?_map, Option.map_eq_some_iff] at rewritten
  obtain ⟨expert, chosen, mapped⟩ := rewritten
  have held : copied.map.keyOf slot = some (cfg.base layerId + expert) :=
    (coherent.inverse _ _).mp mapped
  refine ⟨expert, chosen, ?_⟩
  rw [coherent.rows slot _ held, row_base (routed expert (mem_of_getElem? chosen))]

variable {lru : LruEnsure} {zeroRow : Bank → Bytes}

theorem Coherent.ensureExperts (contract : LruContract lru) (coherent : Coherent cfg cache)
    {layerId : Nat} (layer : layerId < cfg.numLayers) {expertIds : List Nat}
    (routed : ∀ expert ∈ expertIds, expert < cfg.numExperts)
    {copied : OffloadMoeCache Bank Bytes}
    (run : copyMissing cfg (ensureExperts lru cfg cache layerId expertIds).1 = .ok copied) :
    Coherent cfg copied ∧ Reads cfg copied layerId expertIds
      (OffloadMoeCache.ensureExperts lru cfg cache layerId expertIds).2 := by
  have served := contract cache.cacheSize (cfg.base layerId) cache.lruState expertIds
    ⟨coherent.inverse, fun slot id held => (coherent.bounds slot id held).1, coherent.clock⟩
    ((active_le routed).trans coherent.size)
  obtain ⟨kept, same⟩ := @Coherent.staged _ _ cfg cache coherent layerId layer
    (OffloadMoeCache.ensureExperts lru cfg cache layerId expertIds).1 copied {
      paired := served.paired
      slotsDistinct := served.victimsDistinct
      slotsBound := fun slot mem => (served.victims slot mem).1
      expertsDistinct := served.missesDistinct
      expertsBound := fun expert mem => routed expert ((served.misses expert).mp mem).1
      missing := fun expert mem => ((served.misses expert).mp mem).2 }
    served.arrays served.clock ⟨rfl, rfl, rfl⟩ ⟨rfl, rfl⟩ run
  refine ⟨kept, ?_⟩
  have rewritten := kept.reads layerId routed
  rw [show copied.slotForId = _ from congrArg SlotMap.slotOf same] at rewritten
  unfold OffloadMoeCache.ensureExperts
  simp only
  rw [served.rewritten]
  exact rewritten

theorem Coherent.ensureExpertsHybrid (coherent : Coherent cfg cache) {layerId : Nat}
    (layer : layerId < cfg.numLayers) {expertIds : List Nat}
    (routed : ∀ expert ∈ expertIds, expert < cfg.numExperts)
    {copied : OffloadMoeCache Bank Bytes}
    (run : copyMissing cfg (ensureExpertsHybrid cfg cache layerId expertIds).1 = .ok copied) :
    Coherent cfg copied ∧ Reads cfg copied layerId expertIds
      (OffloadMoeCache.ensureExpertsHybrid cfg cache layerId expertIds).2 := by
  have done := ensureExpertsHybrid_staged coherent layerId routed
  obtain ⟨kept, same⟩ := coherent.staged layer done.staged done.arrays done.clock done.frame
    done.pending run
  refine ⟨kept, ?_⟩
  have rewritten := kept.reads layerId routed
  rw [show copied.slotForId = _ from congrArg SlotMap.slotOf same] at rewritten
  exact ensureExpertsHybrid_rewritten layerId ▸ rewritten

theorem Coherent.step (contract : LruContract lru) {next : OffloadMoeCache Bank Bytes}
    (coherent : Coherent cfg cache) (step : Step lru cfg zeroRow cache next) :
    Coherent cfg next := by
  cases step with
  | ensureExperts layerId expertIds layer routed copied run =>
    exact (coherent.ensureExperts contract layer routed run).1
  | ensureExpertsHybrid layerId expertIds layer routed copied run =>
    exact (coherent.ensureExpertsHybrid layer routed run).1
  | materializeLayer layerId layer copied run => exact coherent.materializeLayer layer run
  | beginPrefill => exact coherent.beginPrefill
  | prefetchPrefillLayer layerId after run => exact coherent.prefetchPrefillLayer run
  | releasePrefillLayer layerId => exact coherent.releasePrefillLayer layerId
  | reset => exact coherent.reset
  | rebuild cacheSize after run => exact Coherent.rebuild run

theorem Reachable.coherent (contract : LruContract lru)
    (reachable : Reachable lru cfg zeroRow cache) : Coherent cfg cache := by
  induction reachable with
  | init built => exact coherent_init built
  | step _ step coherent => exact coherent.step contract step

/-- **No stale hit.** -/
theorem no_stale_hit (contract : LruContract lru) (reachable : Reachable lru cfg zeroRow cache) :
    Coherent cfg cache ∧ ∀ layerId < cfg.numLayers, ∀ expertIds : List Nat,
        (∀ expert ∈ expertIds, expert < cfg.numExperts) →
        (∀ copied, copyMissing cfg (ensureExperts lru cfg cache layerId expertIds).1 = .ok copied →
          Reads cfg copied layerId expertIds
            (ensureExperts lru cfg cache layerId expertIds).2) ∧
        (∀ copied, copyMissing cfg (ensureExpertsHybrid cfg cache layerId expertIds).1 =
            .ok copied →
          Reads cfg copied layerId expertIds
            (ensureExpertsHybrid cfg cache layerId expertIds).2) := by
  have coherent := reachable.coherent contract
  refine ⟨coherent, fun layerId layer expertIds routed => ⟨fun copied run => ?_,
    fun copied run => ?_⟩⟩
  · exact (coherent.ensureExperts contract layer routed run).2
  · exact (coherent.ensureExpertsHybrid layer routed run).2

/-- Two layers of two experts, whose rows are their flat ids, over a pool of three slots. -/
def smallConfig : OffloadConfig Unit Nat :=
  { flatConfig with
    numLayers := 2
    numExperts := 2
    bankSources := fun layerId expert _ => 2 * layerId + expert }

/-- A run on two slots that serves both experts of the first layer and then one of the second, which
evicts one of them: the next step, for the evicted expert, reads its row again. -/
theorem no_stale_hit_after_eviction : ∃ cache, Reachable lruReference smallConfig (fun _ => 9) cache ∧
    cache.idOfSlot 0 = some 3 ∧ Coherent smallConfig cache ∧
    ∀ copied, copyMissing smallConfig (ensureExperts lruReference smallConfig cache 0 [1]).1 =
        .ok copied →
      Reads smallConfig copied 0 [1] (ensureExperts lruReference smallConfig cache 0 [1]).2 := by
  have first := (@Reachable.init _ _ lruReference smallConfig (fun _ => 9) 2 false _ rfl).step
    (.ensureExperts _ 0 [1, 0] (by decide) (by decide) _ rfl)
  have reach := first.step (.ensureExperts _ 1 [1] (by decide) (by decide) _ rfl)
  obtain ⟨coherent, reads⟩ := no_stale_hit lruReference_contract reach
  exact ⟨_, reach, by decide, coherent, (reads 0 (by decide) [1] (by decide)).1⟩

end OffloadMoeCache

end FreeToken
