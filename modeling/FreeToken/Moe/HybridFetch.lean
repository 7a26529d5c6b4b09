/-
**The hybrid kernel stages rows soundly, on the GPU and on the CPU.**

Both loops choose victims by least usage and both may only take a slot once: the GPU kernel because
it masks the slots it has taken, the CPU mirror because a taken slot has the usage of the step. That
a free slot is left every time is a count, `exists_free`: the active experts, resident or missing,
are at most `num_experts`, and the pool has that many slots.
-/

import FreeToken.Moe.Coherence
import Mathlib.Data.List.Perm.Lattice

namespace FreeToken

open SlotMap List Function

namespace OffloadMoeCache

variable {Bank Bytes : Type} {cfg : OffloadConfig Bank Bytes}
  {cache : OffloadMoeCache Bank Bytes} {base step : Nat} {expertIds : List Nat}

/-! ### A free slot is left -/

def hitSlots (cache : OffloadMoeCache Bank Bytes) (base : Nat) (expertIds : List Nat) : List Nat :=
  (expertIds.dedup.filter fun expert => !decide (cache.slotForId (base + expert) = none)).filterMap
    fun expert => cache.slotForId (base + expert)

theorem hits_and_misses (cache : OffloadMoeCache Bank Bytes) (base : Nat) (expertIds : List Nat) :
    (hitSlots cache base expertIds).length +
      (missingIds cache.slotForId base expertIds).length ≤ expertIds.dedup.length := by
  have hits : (hitSlots cache base expertIds).length ≤ (expertIds.dedup.filter fun expert =>
        !decide (cache.slotForId (base + expert) = none)).length := length_filterMap_le _ _
  have split := length_eq_length_filter_add (l := expertIds.dedup)
    fun expert => decide (cache.slotForId (base + expert) = none)
  unfold missingIds
  omega

theorem mem_hitSlots {slot expert : Nat} (active : expert ∈ expertIds)
    (held : cache.slotForId (base + expert) = some slot) :
    slot ∈ hitSlots cache base expertIds := by
  refine mem_filterMap.mpr ⟨expert, mem_filter.mpr ⟨mem_dedup.mpr active, ?_⟩, held⟩
  rw [held]
  rfl

theorem mem_missingIds {slotForId : Nat → Option Nat} {expert : Nat} :
    expert ∈ missingIds slotForId base expertIds ↔
      expert ∈ expertIds ∧ slotForId (base + expert) = none := by
  unfold missingIds
  rw [mem_filter, mem_dedup, decide_eq_true_iff]

theorem missingIds_nodup (slotForId : Nat → Option Nat) :
    (missingIds slotForId base expertIds).Nodup :=
  (nodup_dedup _).filter _

theorem mem_missingExperts {slotForId : Nat → Option Nat} {expert : Nat} :
    expert ∈ missingExperts cfg slotForId base expertIds ↔
      expert < cfg.numExperts ∧ expert ∈ expertIds ∧ slotForId (base + expert) = none := by
  unfold missingExperts
  rw [mem_filter, mem_range, decide_eq_true_iff]

theorem missingExperts_nodup (slotForId : Nat → Option Nat) :
    (missingExperts cfg slotForId base expertIds).Nodup :=
  nodup_range.filter _

theorem missing_perm (routed : ∀ expert ∈ expertIds, expert < cfg.numExperts)
    (slotForId : Nat → Option Nat) :
    (missingIds slotForId base expertIds).Perm
      (missingExperts cfg slotForId base expertIds) := by
  refine (perm_ext_iff_of_nodup (missingIds_nodup _)
    (missingExperts_nodup _)).mpr fun expert => ?_
  rw [mem_missingIds, mem_missingExperts]
  exact ⟨fun mem => ⟨routed expert mem.1, mem⟩, fun mem => mem.2⟩

theorem active_le (routed : ∀ expert ∈ expertIds, expert < cfg.numExperts) :
    expertIds.dedup.length ≤ cfg.numExperts := by
  have lt : expertIds.dedup ⊆ range cfg.numExperts := fun expert mem =>
    mem_range.mpr (routed expert (mem_dedup.mp mem))
  have count := (subperm_of_subset (nodup_dedup expertIds) lt).length_le
  rwa [length_range] at count

theorem exists_free {taken choices : List Nat} (nodup : choices.Nodup)
    (shorter : taken.length < choices.length) : ∃ choice ∈ choices, choice ∉ taken := by
  by_contra none
  push Not at none
  exact absurd (subperm_of_subset nodup none).length_le (by omega)

theorem exists_freeSlot (size : expertIds.dedup.length ≤ cache.cacheSize) {evictSlots : List Nat}
    (left : evictSlots.length < (missingIds cache.slotForId base expertIds).length) :
    ∃ slot < cache.cacheSize, slot ∉ hitSlots cache base expertIds ∧ slot ∉ evictSlots := by
  have count := hits_and_misses cache base expertIds
  have shorter : (hitSlots cache base expertIds ++ evictSlots).length <
      (range cache.cacheSize).length := by
    rw [length_append, length_range]
    omega
  obtain ⟨slot, mem, free⟩ := exists_free nodup_range shorter
  rw [mem_append, not_or] at free
  exact ⟨slot, mem_range.mp mem, free⟩

theorem argmin_range {Value : Type} [LinearOrder Value] (u : Nat → Value) {size slot : Nat}
    (bound : slot < size) :
    ((List.range size).argmin u).getD 0 < size ∧
      u (((List.range size).argmin u).getD 0) ≤ u slot := by
  have lt := mem_range.mpr bound
  rcases least : (range size).argmin u with _ | victim
  · rw [argmin_eq_none] at least
    rw [least] at lt
    cases lt
  · exact ⟨mem_range.mp (argmin_mem least), le_of_mem_argmin lt least⟩

theorem argmax_range {Value : Type} [LinearOrder Value] (score : Nat → Value) {size expert : Nat}
    (bound : expert < size) :
    score expert ≤ score (((List.range size).argmax score).getD 0) := by
  have lt := mem_range.mpr bound
  rcases most : (range size).argmax score with _ | best
  · rw [argmax_eq_none] at most
    rw [most] at lt
    cases lt
  · exact le_of_mem_argmax lt most

/-! ### The GPU loop -/

/-- The invariant of the GPU loop. -/
structure FetchLanes.Inv (cfg : OffloadConfig Bank Bytes) (cache : OffloadMoeCache Bank Bytes)
    (base step : Nat) (expertIds : List Nat) (lanes : FetchLanes) : Prop where
  arrays : SlotMap.mk lanes.slotForId lanes.idOfSlot =
    cache.map.putAll (stagedPairs base lanes.evictSlots lanes.srcIndices)
  paired : lanes.evictSlots.length = lanes.srcIndices.length
  slotsDistinct : lanes.evictSlots.Nodup
  slotsBound : ∀ slot ∈ lanes.evictSlots, slot < cache.cacheSize
  expertsDistinct : lanes.srcIndices.Nodup
  experts : ∀ expert ∈ lanes.srcIndices, expert ∈ missingExperts cfg cache.slotForId base expertIds
  order : cfg.byRecency = false →
    lanes.srcIndices <+: missingExperts cfg cache.slotForId base expertIds
  u : ∀ slot, lanes.u slot = ⊤ → slot ∈ lanes.evictSlots ∨ slot ∈ hitSlots cache base expertIds
  taken : ∀ slot ∈ lanes.evictSlots, lanes.u slot = ⊤
  score : ∀ expert, lanes.score expert ≠ ⊥ ↔
    expert ∈ missingExperts cfg cache.slotForId base expertIds ∧ expert ∉ lanes.srcIndices
  clock : ∀ slot, lanes.usage slot ≤ step

theorem touchHits_le (slotForId : Nat → Option Nat) {usage : Nat → Nat}
    (clock : ∀ slot, usage slot ≤ step) (slot : Nat) :
    touchHits slotForId base step expertIds usage slot ≤ step := by
  unfold touchHits
  split
  · exact le_rfl
  · exact clock slot

theorem fetchStart_inv (coherent : Coherent cfg cache) :
    (fetchStart cfg cache base (cache.step + 1) expertIds).Inv cfg cache base
      (cache.step + 1) expertIds where
  arrays := rfl
  paired := rfl
  slotsDistinct := nodup_nil
  slotsBound := fun _ mem => by cases mem
  expertsDistinct := nodup_nil
  experts := fun _ mem => by cases mem
  order := fun _ => nil_prefix
  u := by
    intro slot masked
    unfold fetchStart at masked
    simp only at masked
    split at masked
    · next owner =>
      obtain ⟨expert, active, held⟩ := owner
      exact Or.inr (mem_hitSlots active ((coherent.inverse _ _).mpr held))
    · exact absurd masked (WithTop.coe_ne_top)
  taken := fun _ mem => by cases mem
  score := by
    intro expert
    unfold fetchStart
    simp only [not_mem_nil, not_false_eq_true, and_true]
    split
    · next mem => exact iff_of_true (WithBot.coe_ne_bot) mem
    · next outside => exact iff_of_false (fun ne => ne rfl) outside
  clock := fun slot => touchHits_le _ (fun slot => (coherent.clock slot).trans (Nat.le_succ _)) slot

theorem FetchLanes.Inv.expert {lanes : FetchLanes} (inv : lanes.Inv cfg cache base step expertIds)
    (left : lanes.srcIndices.length < (missingExperts cfg cache.slotForId base expertIds).length) :
    lanes.expert cfg (missingExperts cfg cache.slotForId base expertIds) ∈
        missingExperts cfg cache.slotForId base expertIds ∧
      lanes.expert cfg (missingExperts cfg cache.slotForId base expertIds) ∉
        lanes.srcIndices ∧
      (cfg.byRecency = false → lanes.srcIndices ++
          [lanes.expert cfg (missingExperts cfg cache.slotForId base expertIds)] <+:
            missingExperts cfg cache.slotForId base expertIds) := by
  unfold FetchLanes.expert
  by_cases recency : cfg.byRecency = true
  · rw [if_pos recency]
    obtain ⟨expert, mem, fresh⟩ :=
      exists_free (@missingExperts_nodup _ _ cfg base expertIds cache.slotForId) left
    have scored := (inv.score expert).mpr ⟨mem, fresh⟩
    have best := argmax_range lanes.score (mem_missingExperts.mp mem).1
    have chosen := (inv.score (((range cfg.numExperts).argmax lanes.score).getD 0)).mp
      fun bottom => scored (le_bot_iff.mp (bottom ▸ best))
    exact ⟨chosen.1, chosen.2, fun byId => by rw [recency] at byId; cases byId⟩
  · rw [if_neg recency]
    have order := inv.order (Bool.eq_false_iff.mpr recency)
    rw [getD_eq_getElem?_getD, getElem?_eq_getElem left, Option.getD_some]
    refine ⟨getElem_mem left, fun again => ?_, fun _ => ?_⟩
    · have nodup := @missingExperts_nodup _ _ cfg base expertIds cache.slotForId
      obtain ⟨k, pre, same⟩ := mem_iff_getElem.mp again
      rw [order.getElem pre] at same
      exact absurd ((nodup.getElem_inj_iff).mp same) (by omega)
    · have taken := prefix_iff_eq_take.mp order
      refine prefix_iff_eq_take.mpr ?_
      rw [length_append, length_singleton, take_add_one, ← taken, getElem?_eq_getElem left]
      rfl

theorem FetchLanes.Inv.victim {lanes : FetchLanes} (inv : lanes.Inv cfg cache base step expertIds)
    (size : cfg.numExperts ≤ cache.cacheSize)
    (routed : ∀ expert ∈ expertIds, expert < cfg.numExperts)
    (left : lanes.srcIndices.length < (missingExperts cfg cache.slotForId base expertIds).length) :
    lanes.victim cache.cacheSize < cache.cacheSize ∧
      lanes.victim cache.cacheSize ∉ lanes.evictSlots := by
  rw [← (missing_perm routed cache.slotForId).length_eq, ← inv.paired] at left
  obtain ⟨slot, bound, noHit, fresh⟩ := exists_freeSlot ((active_le routed).trans size) left
  obtain ⟨lt, least⟩ := argmin_range lanes.u bound
  refine ⟨lt, fun again => ?_⟩
  have masked := inv.taken _ again
  unfold FetchLanes.victim at masked
  rw [masked, top_le_iff] at least
  rcases inv.u slot least with taken | hit
  · exact fresh taken
  · exact noHit hit

theorem FetchLanes.Inv.fetch {lanes : FetchLanes} (inv : lanes.Inv cfg cache base step expertIds)
    (size : cfg.numExperts ≤ cache.cacheSize)
    (routed : ∀ expert ∈ expertIds, expert < cfg.numExperts)
    (left : lanes.srcIndices.length < (missingExperts cfg cache.slotForId base expertIds).length) :
    (lanes.fetch cache.idOfSlot base step (lanes.victim cache.cacheSize)
      (lanes.expert cfg (missingExperts cfg cache.slotForId base expertIds))).Inv cfg cache
        base step expertIds := by
  obtain ⟨chosen, freshExpert, order⟩ := inv.expert left
  obtain ⟨bound, freshSlot⟩ := inv.victim size routed left
  generalize lanes.expert cfg _ = expert at *
  generalize lanes.victim _ = victim at *
  refine {
    arrays := ?_
    paired := by simp [FetchLanes.fetch, inv.paired]
    slotsDistinct := inv.slotsDistinct.append (nodup_singleton _)
      (disjoint_singleton.mpr freshSlot)
    slotsBound := ?_
    expertsDistinct := inv.expertsDistinct.append (nodup_singleton _)
      (disjoint_singleton.mpr freshExpert)
    experts := ?_
    order := order
    u := ?_
    taken := ?_
    score := ?_
    clock := ?_ }
  · -- the kernel's copy of the slot's owner is still right, the slot was not taken
    have fresh : victim ∉ (stagedPairs base lanes.evictSlots lanes.srcIndices).map Prod.snd :=
      (stagedPairs_snd base inv.paired).symm ▸ freshSlot
    have owner := putAll_keyOf_of_notMem cache.map _ fresh
    rw [← inv.arrays] at owner
    have owner : lanes.idOfSlot victim = cache.idOfSlot victim := owner
    rw [FetchLanes.fetch, stagedPairs_append inv.paired, putAll_append, ← inv.arrays, ← owner]
    rcases held : lanes.idOfSlot victim with _ | old
    · simp [putAll, put, held]
    · simp [putAll, put, held]
  · intro slot mem
    rcases mem_append.mp mem with old | new
    · exact inv.slotsBound slot old
    · rw [mem_singleton.mp new]
      exact bound
  · intro other mem
    rcases mem_append.mp mem with old | new
    · exact inv.experts other old
    · rw [mem_singleton.mp new]
      exact chosen
  · intro slot masked
    by_cases same : slot = victim
    · exact Or.inl (mem_append_right _ (mem_singleton.mpr same))
    · simp only [FetchLanes.fetch, update_of_ne same] at masked
      exact (inv.u slot masked).imp_left (mem_append_left _)
  · intro slot mem
    show update lanes.u victim ⊤ slot = ⊤
    by_cases same : slot = victim
    · rw [same, update_self]
    · rw [update_of_ne same]
      rcases mem_append.mp mem with old | new
      · exact inv.taken slot old
      · exact absurd (mem_singleton.mp new) same
  · intro other
    unfold FetchLanes.fetch
    by_cases same : other = expert
    · subst same
      simp
    · simp only [update_of_ne same, mem_append, mem_singleton, same, or_false]
      exact inv.score other
  · intro slot
    show update lanes.usage victim step slot ≤ step
    by_cases same : slot = victim
    · rw [same, update_self]
    · rw [update_of_ne same]
      exact inv.clock slot

/-- The GPU loop. -/
theorem fetchLoop_inv (size : cfg.numExperts ≤ cache.cacheSize)
    (routed : ∀ expert ∈ expertIds, expert < cfg.numExperts) :
    ∀ (rounds : Nat) (lanes : FetchLanes), lanes.Inv cfg cache base step expertIds →
      lanes.srcIndices.length + rounds ≤
        (missingExperts cfg cache.slotForId base expertIds).length →
      (fetchLoop cfg cache.cacheSize cache.idOfSlot base step
        (missingExperts cfg cache.slotForId base expertIds) rounds lanes).Inv cfg cache base
          step expertIds := by
  intro rounds
  induction rounds with
  | zero => exact fun lanes inv _ => inv
  | succ rounds ih =>
    intro lanes inv enough
    have next := inv.fetch size routed (by omega)
    refine ih _ next ?_
    rw [FetchLanes.fetch, length_append, length_singleton]
    omega

/-! ### The CPU loop -/

/-- **What the CPU loop keeps**; a slot with the usage of the step is taken or resident. -/
structure CpuInv (cache : OffloadMoeCache Bank Bytes) (base step : Nat) (expertIds : List Nat)
    (cur : OffloadMoeCache Bank Bytes) : Prop where
  arrays : cur.map = cache.map.putAll (stagedPairs base cur.evictSlots cur.srcIndices)
  paired : cur.evictSlots.length = cur.srcIndices.length
  slotsDistinct : cur.evictSlots.Nodup
  slotsBound : ∀ slot ∈ cur.evictSlots, slot < cache.cacheSize
  recent : ∀ slot, cur.usage slot = step → slot ∈ cur.evictSlots ∨
    slot ∈ hitSlots cache base expertIds
  taken : ∀ slot ∈ cur.evictSlots, cur.usage slot = step
  hits : ∀ slot ∈ hitSlots cache base expertIds, cur.usage slot = step
  apart : ∀ slot ∈ cur.evictSlots, slot ∉ hitSlots cache base expertIds
  clock : ∀ slot, cur.usage slot ≤ step
  frame : cur.cacheSize = cache.cacheSize ∧ cur.prefillOverlap = cache.prefillOverlap ∧
    cur.bankCaches = cache.bankCaches
  pending : cur.pendingSrcLayer = cache.pendingSrcLayer ∧
    cur.pendingWholeLayer = cache.pendingWholeLayer
  clockNow : cur.step = step

theorem CpuInv.fetch {layerId : Nat} {cur : OffloadMoeCache Bank Bytes}
    (inv : CpuInv cache (cfg.base layerId) step expertIds cur)
    (size : expertIds.dedup.length ≤ cache.cacheSize)
    (left : cur.srcIndices.length <
      (missingIds cache.slotForId (cfg.base layerId) expertIds).length)
    (expert : Nat) :
    CpuInv cache (cfg.base layerId) step expertIds
      (fetchCpu layerId step cfg cur expert) := by
  obtain ⟨slot, bound, noHit, fresh⟩ := exists_freeSlot size (inv.paired ▸ left)
  obtain ⟨lt, least⟩ := argmin_range cur.usage bound
  have early : cur.usage slot < step := lt_of_le_of_ne (inv.clock slot) fun now =>
    (inv.recent slot now).elim fresh noHit
  unfold fetchCpu
  rw [inv.frame.1]
  generalize ((range cache.cacheSize).argmin cur.usage).getD 0 = victim at *
  have freshSlot : victim ∉ cur.evictSlots := fun again =>
    absurd (inv.taken victim again) (by omega)
  have cold : victim ∉ hitSlots cache (cfg.base layerId) expertIds := fun hit =>
    absurd (inv.hits victim hit) (by omega)
  refine {
    arrays := ?_
    paired := by simp [inv.paired]
    slotsDistinct := inv.slotsDistinct.append (nodup_singleton _)
      (disjoint_singleton.mpr freshSlot)
    slotsBound := ?_
    recent := ?_
    taken := ?_
    hits := ?_
    apart := ?_
    clock := ?_
    frame := ⟨rfl, inv.frame.2⟩
    pending := inv.pending
    clockNow := inv.clockNow }
  · rw [stagedPairs_append inv.paired, putAll_append, ← inv.arrays]
    rcases held : cur.idOfSlot victim with _ | old
    · simp [OffloadMoeCache.map, putAll, put, held]
    · simp [OffloadMoeCache.map, putAll, put, held]
  · intro other mem
    rcases mem_append.mp mem with old | new
    · exact inv.slotsBound other old
    · rw [mem_singleton.mp new]
      exact lt
  · intro other now
    by_cases same : other = victim
    · exact Or.inl (mem_append_right _ (mem_singleton.mpr same))
    · simp only [update_of_ne same] at now
      exact (inv.recent other now).imp_left (mem_append_left _)
  · intro other mem
    show update cur.usage victim step other = step
    by_cases same : other = victim
    · rw [same, update_self]
    · rw [update_of_ne same]
      rcases mem_append.mp mem with old | new
      · exact inv.taken other old
      · exact absurd (mem_singleton.mp new) same
  · intro other hit
    show update cur.usage victim step other = step
    rw [update_of_ne (fun same : other = victim => cold (same ▸ hit))]
    exact inv.hits other hit
  · intro other mem
    rcases mem_append.mp mem with old | new
    · exact inv.apart other old
    · rw [mem_singleton.mp new]
      exact cold
  · intro other
    show update cur.usage victim step other ≤ step
    by_cases same : other = victim
    · rw [same, update_self]
    · rw [update_of_ne same]
      exact inv.clock other

/-- The CPU loop. -/
theorem fetchCpu_inv {layerId : Nat} (size : expertIds.dedup.length ≤ cache.cacheSize) :
    ∀ (experts : List Nat) (cur : OffloadMoeCache Bank Bytes),
      CpuInv cache (cfg.base layerId) step expertIds cur →
      cur.srcIndices.length + experts.length ≤
        (missingIds cache.slotForId (cfg.base layerId) expertIds).length →
      CpuInv cache (cfg.base layerId) step expertIds
          (experts.foldl (fetchCpu layerId step cfg) cur) ∧
        (experts.foldl (fetchCpu layerId step cfg) cur).srcIndices = cur.srcIndices ++ experts := by
  intro experts
  induction experts with
  | nil => exact fun cur inv _ => ⟨inv, (append_nil _).symm⟩
  | cons expert experts ih =>
    intro cur inv enough
    rw [length_cons] at enough
    have next := inv.fetch size (by omega) expert
    have staged : (fetchCpu layerId step cfg cur expert).srcIndices =
        cur.srcIndices ++ [expert] := rfl
    obtain ⟨last, all⟩ := ih _ next (by
      rw [staged, length_append, length_singleton]
      omega)
    refine ⟨last, all.trans ?_⟩
    rw [staged, append_assoc]
    rfl

/-! ### Either of them -/

structure HybridStaged (cfg : OffloadConfig Bank Bytes) (cache : OffloadMoeCache Bank Bytes)
    (layerId : Nat) (after : OffloadMoeCache Bank Bytes) : Prop where
  staged : Staged cfg.numExperts cache.cacheSize (cfg.base layerId) cache.slotForId
    after.evictSlots after.srcIndices
  arrays : after.map = cache.map.putAll
    (stagedPairs (cfg.base layerId) after.evictSlots after.srcIndices)
  clock : ∀ slot, after.usage slot ≤ after.step
  frame : after.cacheSize = cache.cacheSize ∧ after.prefillOverlap = cache.prefillOverlap ∧
    after.bankCaches = cache.bankCaches
  pending : after.pendingSrcLayer = some layerId ∧ after.pendingWholeLayer = false

theorem kernelFetch_le (numMissing : Nat) (fetchFracQ16 : BitVec 32) :
    (kernelFetch (.ofNat 32 numMissing) fetchFracQ16).toInt ≤ numMissing := by
  have word : (BitVec.ofNat 32 numMissing).toInt ≤ numMissing := by
    rw [BitVec.toInt_ofNat', Int.bmod_def]
    split
    · omega
    · omega
  unfold kernelFetch tlMinimum
  split
  · exact word
  · next above =>
    rw [BitVec.sle_eq_decide, decide_eq_true_iff, not_le] at above
    exact above.le.trans word

theorem kernelNumFetch_le (cfg : OffloadConfig Bank Bytes) (numMissing : Nat) :
    (kernelNumFetch cfg numMissing).toNat ≤ numMissing := by
  refine Int.toNat_le.mpr ?_
  unfold kernelNumFetch
  split
  · exact kernelFetch_le numMissing _
  · exact min_le_left _ _

theorem ensureExpertsHybridGpu_staged (coherent : Coherent cfg cache) {layerId : Nat}
    (routed : ∀ expert ∈ expertIds, expert < cfg.numExperts)
    (pending : cache.pendingSrcLayer = some layerId ∧ cache.pendingWholeLayer = false) :
    HybridStaged cfg cache layerId
      (ensureExpertsHybridGpu cfg cache layerId expertIds).1 := by
  have start := @fetchStart_inv _ _ cfg cache (cfg.base layerId) expertIds coherent
  have loop := fetchLoop_inv coherent.size routed (kernelNumFetch cfg
    (missingExperts cfg cache.slotForId (cfg.base layerId) expertIds).length).toNat _ start (by
      rw [fetchStart, length_nil, zero_add]
      exact kernelNumFetch_le cfg _)
  exact {
    staged := {
      paired := loop.paired
      slotsDistinct := loop.slotsDistinct
      slotsBound := loop.slotsBound
      expertsDistinct := loop.expertsDistinct
      expertsBound := fun expert mem => (mem_missingExperts.mp (loop.experts expert mem)).1
      missing := fun expert mem => (mem_missingExperts.mp (loop.experts expert mem)).2.2 }
    arrays := loop.arrays
    clock := loop.clock
    frame := ⟨rfl, rfl, rfl⟩
    pending := pending }

theorem cpuStart_inv (coherent : ∀ slot, cache.usage slot ≤ cache.step) (base : Nat)
    (expertIds : List Nat) :
    CpuInv cache base (cache.step + 1) expertIds
      { cache with
        step := cache.step + 1
        usage := touchHits cache.slotForId base (cache.step + 1) expertIds cache.usage
        evictSlots := []
        srcIndices := [] } where
  arrays := rfl
  paired := rfl
  slotsDistinct := nodup_nil
  slotsBound := fun _ mem => by cases mem
  recent := fun slot now => by
    simp only [touchHits] at now
    split at now
    · next hit =>
      obtain ⟨expert, active, held⟩ := hit
      exact Or.inr (mem_hitSlots active held)
    · exact absurd now (by have := coherent slot; omega)
  taken := fun _ mem => by cases mem
  hits := fun slot hit => by
    obtain ⟨expert, mem, held⟩ := mem_filterMap.mp hit
    exact if_pos ⟨expert, mem_dedup.mp (mem_filter.mp mem).1, held⟩
  apart := fun _ mem => by cases mem
  clock := touchHits_le _ fun slot => (coherent slot).trans (Nat.le_succ _)
  frame := ⟨rfl, rfl, rfl⟩
  pending := ⟨rfl, rfl⟩
  clockNow := rfl

theorem ensureExpertsHybridCpu_staged (coherent : Coherent cfg cache) {layerId : Nat}
    (routed : ∀ expert ∈ expertIds, expert < cfg.numExperts)
    (pending : cache.pendingSrcLayer = some layerId ∧ cache.pendingWholeLayer = false) :
    HybridStaged cfg cache layerId
      (ensureExpertsHybridCpu cfg cache layerId expertIds).1 := by
  unfold ensureExpertsHybridCpu
  simp only
  have perm := mergeSort_perm (missingIds cache.slotForId (cfg.base layerId) expertIds)
    (fetchBefore cfg cache.expertRecency (cfg.base layerId))
  generalize (missingIds cache.slotForId (cfg.base layerId) expertIds).mergeSort _ = missing at *
  generalize (min (missing.length : Int) (maxFetch cfg missing.length)).toNat = numFetch
  have start := cpuStart_inv coherent.clock (cfg.base layerId) expertIds
  obtain ⟨loop, chosen⟩ := fetchCpu_inv ((active_le routed).trans coherent.size)
    (missing.take numFetch) _ start (by
      rw [length_nil, zero_add, ← perm.length_eq, length_take]
      exact min_le_right _ _)
  have chosen := chosen.trans (nil_append _)
  have sound : ∀ expert ∈ missing.take numFetch,
      expert ∈ missingIds cache.slotForId (cfg.base layerId) expertIds :=
    fun expert mem => perm.subset (mem_of_mem_take mem)
  have nodup : (missing.take numFetch).Nodup :=
    (perm.nodup_iff.mpr (missingIds_nodup _)).sublist (take_sublist _ _)
  rw [← chosen] at sound nodup
  exact {
    staged := {
      paired := loop.paired
      slotsDistinct := loop.slotsDistinct
      slotsBound := loop.slotsBound
      expertsDistinct := nodup
      expertsBound := fun expert mem => routed expert (mem_missingIds.mp (sound expert mem)).1
      missing := fun expert mem => (mem_missingIds.mp (sound expert mem)).2 }
    arrays := loop.arrays
    clock := fun slot => (loop.clock slot).trans_eq loop.clockNow.symm
    frame := loop.frame
    pending := ⟨loop.pending.1.trans pending.1, loop.pending.2.trans pending.2⟩ }

/-- Both loops stage the missing experts soundly. -/
theorem ensureExpertsHybrid_staged (coherent : Coherent cfg cache) (layerId : Nat)
    (routed : ∀ expert ∈ expertIds, expert < cfg.numExperts) :
    HybridStaged cfg cache layerId
      (ensureExpertsHybrid cfg cache layerId expertIds).1 := by
  have pending : Coherent cfg
      { cache with pendingSrcLayer := some layerId, pendingWholeLayer := false } :=
    ⟨coherent.inverse, coherent.bounds, coherent.rows, coherent.clock, coherent.size,
      coherent.overlap⟩
  unfold ensureExpertsHybrid
  split
  · have done := ensureExpertsHybridGpu_staged pending routed ⟨rfl, rfl⟩
    exact ⟨done.staged, done.arrays, done.clock, done.frame, done.pending⟩
  · have done := ensureExpertsHybridCpu_staged pending routed ⟨rfl, rfl⟩
    exact ⟨done.staged, done.arrays, done.clock, done.frame, done.pending⟩

theorem ensureExpertsHybrid_rewritten (layerId : Nat) :
    (ensureExpertsHybrid cfg cache layerId expertIds).2 =
      rewriteIds (ensureExpertsHybrid cfg cache layerId expertIds).1.slotForId
        (cfg.base layerId) expertIds := by
  unfold ensureExpertsHybrid
  split
  · rfl
  · rfl

/-! ### A kernel that meets the contract -/

def flatConfig : OffloadConfig Unit Unit where
  numLayers := 0
  numExperts := 1
  prefillHitD2d := false
  hitD2dUsable := false
  maxSlots := none
  marlinBanks := false
  isCuda := false
  hybridMaxFetch := 0
  fracQ16 := 0
  byRecency := false
  unpinnedLayers := fun _ => false
  smallBank := fun _ => false
  bankSources := fun _ _ _ => ()

def ofLruState (cacheSize : Nat) (state : LruState) : OffloadMoeCache Unit Unit where
  cacheSize := cacheSize
  prefillOverlap := false
  slotForId := state.slotForId
  idOfSlot := state.idOfSlot
  usage := state.usage
  step := state.step
  expertRecency := fun _ => -1
  evictSlots := []
  srcIndices := []
  pendingSrcLayer := none
  pendingWholeLayer := false
  bankCaches := fun _ _ => ()
  prefillBufferLayer := fun _ => none
  prefillBufferReleased := fun _ => true
  prefillHitD2dActive := false
  prefillSlotSnapshot := fun _ => none

def fetchAll (cache : OffloadMoeCache Unit Unit) (idBase : Nat) (ids : List Nat) :
    OffloadMoeCache Unit Unit :=
  (missingIds cache.slotForId (flatConfig.base idBase) ids).foldl
    (fetchCpu idBase (cache.step + 1) flatConfig)
    { cache with
      step := cache.step + 1
      usage := touchHits cache.slotForId (flatConfig.base idBase) (cache.step + 1) ids cache.usage
      evictSlots := []
      srcIndices := [] }

def lruReference : LruEnsure := fun cacheSize idBase state ids =>
  let fetched := fetchAll (ofLruState cacheSize state) idBase ids
  { slotForId := fetched.slotForId
    idOfSlot := fetched.idOfSlot
    usage := fetched.usage
    step := fetched.step
    outIndices := rewriteIds fetched.slotForId idBase ids
    srcIndices := fetched.srcIndices
    evictSlots := fetched.evictSlots }

theorem fetchAll_inv {cache : OffloadMoeCache Unit Unit} {ids : List Nat}
    (clock : ∀ slot, cache.usage slot ≤ cache.step) (size : ids.dedup.length ≤ cache.cacheSize)
    (idBase : Nat) :
    CpuInv cache idBase (cache.step + 1) ids (fetchAll cache idBase ids) ∧
      (fetchAll cache idBase ids).srcIndices = missingIds cache.slotForId idBase ids := by
  have flat : flatConfig.base idBase = idBase := mul_one idBase
  have start := cpuStart_inv clock (flatConfig.base idBase) ids
  obtain ⟨loop, chosen⟩ := fetchCpu_inv size
    (missingIds cache.slotForId (flatConfig.base idBase) ids) _ start (by
      rw [length_nil, zero_add])
  rw [flat] at loop chosen
  unfold fetchAll
  rw [flat]
  exact ⟨loop, chosen.trans (nil_append _)⟩

theorem lruReference_contract : LruContract lruReference := by
  intro cacheSize idBase state ids valid size
  obtain ⟨loop, chosen⟩ := @fetchAll_inv (ofLruState cacheSize state) ids valid.clock size idBase
  exact {
    arrays := loop.arrays
    paired := loop.paired
    victimsDistinct := loop.slotsDistinct
    victims := fun slot mem => ⟨loop.slotsBound slot mem, fun id active held =>
      loop.apart slot mem (mem_hitSlots active ((valid.inverse _ _).mpr held))⟩
    missesDistinct := by
      show (fetchAll _ idBase ids).srcIndices.Nodup
      rw [chosen]
      exact missingIds_nodup _
    misses := fun id => by
      show id ∈ (fetchAll _ idBase ids).srcIndices ↔ _
      rw [chosen]
      exact mem_missingIds
    rewritten := rfl
    clock := fun slot => (loop.clock slot).trans_eq loop.clockNow.symm }

end OffloadMoeCache

end FreeToken
