/-
**A hybrid decode computes every route once.**
-/

import FreeToken.Lib.Outcome
import FreeToken.Moe.NoStaleHit
import Mathlib.Algebra.BigOperators.Group.Finset.Basic
import Mathlib.Algebra.Module.Defs

namespace FreeToken

open SlotMap List Function

open scoped BigOperators

namespace OffloadMoeCache

variable {Bank Bytes : Type} {cfg : OffloadConfig Bank Bytes}
  {cache : OffloadMoeCache Bank Bytes} {layerId : Nat} {topkIds : List Int}

/-! ### The kernel on the layer's ids -/

/-- What `id_of_slot` holds. -/
def ownerId (cache : OffloadMoeCache Bank Bytes) (slot : Nat) : Int :=
  (cache.idOfSlot slot).elim (-1) Nat.cast

/-- An entry of `slot_for_id` by its flat id; nothing lies in front of the first one. -/
def slotAt (slotForId : Nat → Option Nat) (id : Int) : Option Nat :=
  if id < 0 then none else slotForId id.toNat

/-- `_ensure_experts_hybrid_kernel`. No lane of phase 1 meets a negative id; phases 2 and 3 take every
id as an offset from the layer's base. -/
def hybridKernel (cfg : OffloadConfig Bank Bytes) (cache : OffloadMoeCache Bank Bytes)
    (layerId : Nat) (topkIds : List Int) : OffloadMoeCache Bank Bytes × List (Option Nat) :=
  let step := cache.step + 1
  let base := cfg.base layerId
  let expertIds := (topkIds.filter (0 ≤ ·)).map Int.toNat
  let missing := missingExperts cfg cache.slotForId base expertIds
  let numFetch := kernelNumFetch cfg missing.length
  let usage := touchHits cache.slotForId base step expertIds cache.usage
  let lanes := fetchLoop cfg cache.cacheSize cache.idOfSlot base step missing numFetch.toNat
    { fetchStart cfg cache base step expertIds with
      u := fun slot => if ∃ id ∈ topkIds, cache.ownerId slot = base + id then ⊤
        else (usage slot : WithTop Nat) }
  ({ cache with
      slotForId := lanes.slotForId
      idOfSlot := lanes.idOfSlot
      usage := lanes.usage
      step := step
      expertRecency := touchRecency cfg base step expertIds cache.expertRecency
      evictSlots := lanes.evictSlots
      srcIndices := lanes.srcIndices
      pendingSrcLayer := some layerId
      pendingWholeLayer := false }, topkIds.map fun id => slotAt lanes.slotForId (base + id))

/-! ### The two partial sums -/

def NamesExpert (cfg : OffloadConfig Bank Bytes) (id : Int) : Prop := 0 ≤ id ∧ id < cfg.numExperts

instance (id : Int) : Decidable (NamesExpert cfg id) :=
  inferInstanceAs (Decidable (0 ≤ id ∧ id < cfg.numExperts))

section Sums

variable {R Out Hidden Alpha : Type} [Semiring R] [AddCommMonoid Out] [Module R Out]
  (ffn : Alpha → (Bank → Bytes) → Hidden → Out) (alphas : Nat → Alpha) (hidden : Nat → Hidden)
  (topK : Nat) (weights : Nat → R)

/-- The CPU pool: the routes of a token whose id names an expert, each with the rows of its host
banks. -/
def routedSum (cfg : OffloadConfig Bank Bytes) (layerId : Nat) (ids : Nat → Int) (token : Nat) :
    Out :=
  ∑ k ∈ Finset.range topK, if NamesExpert cfg (ids (token * topK + k)) then
    weights (token * topK + k) •
      ffn (alphas (cfg.base layerId + (ids (token * topK + k)).toNat))
        (cfg.bankSources layerId (ids (token * topK + k)).toNat) (hidden token)
  else 0

def alphasForSlots (cfg : OffloadConfig Bank Bytes) (cache : OffloadMoeCache Bank Bytes)
    (layerId slot : Nat) : Alpha :=
  alphas (cfg.base layerId + (cache.idOfSlot slot).getD 0 % cfg.numExperts)

/-- `_expert_gemm` over the whole slot cache. -/
def expertGemm (cfg : OffloadConfig Bank Bytes) (cache : OffloadMoeCache Bank Bytes)
    (layerId : Nat) (slots : Nat → Nat) (token : Nat) : Out :=
  ∑ k ∈ Finset.range topK, weights (token * topK + k) •
    ffn (alphasForSlots alphas cfg cache layerId (slots (token * topK + k)))
      (cache.bankCaches (slots (token * topK + k))) (hidden token)

def onGpu (slots : List (Option Nat)) (position : Nat) : Bool := (slots.getD position none).isSome

/-- The ids of the CPU partial: `torch.where(on_gpu, -1, raw)`. -/
def cpuIds (topkIds : List Int) (slots : List (Option Nat)) (position : Nat) : Int :=
  if onGpu slots position then -1 else topkIds.getD position (-1)

/-- `_decode_hybrid`. -/
def decodeHybrid (cfg : OffloadConfig Bank Bytes) (cache : OffloadMoeCache Bank Bytes)
    (layerId : Nat) (topkIds : List Int) : Except Err (OffloadMoeCache Bank Bytes × (Nat → Out)) := do
  let (ensured, slots) := hybridKernel cfg cache layerId topkIds
  let copied ← copyMissing cfg ensured
  let gpuSlots := fun position => (slots.getD position none).getD 0
  let gpuW := fun position => if onGpu slots position then weights position else 0
  pure (copied, fun token =>
    expertGemm ffn alphas hidden topK gpuW cfg copied layerId gpuSlots token +
      routedSum ffn alphas hidden topK weights cfg layerId (cpuIds topkIds slots) token)

end Sums

/-! ### Every route once -/

/-- The ids of a batch name experts; a negative one is an id of the layers before, without a slot. -/
def Routable (cfg : OffloadConfig Bank Bytes) (cache : OffloadMoeCache Bank Bytes) (layerId : Nat)
    (topkIds : List Int) : Prop :=
  ∀ id ∈ topkIds, id < cfg.numExperts ∧ (id < 0 → 0 ≤ cfg.base layerId + id ∧
    cache.slotForId (cfg.base layerId + id).toNat = none)

def OnOneSide (cfg : OffloadConfig Bank Bytes) (topkIds : List Int) (slots : List (Option Nat))
    (position : Nat) : Prop :=
  (NamesExpert cfg (topkIds.getD position (-1)) →
      Xor (onGpu slots position = true) (NamesExpert cfg (cpuIds topkIds slots position))) ∧
    (¬NamesExpert cfg (topkIds.getD position (-1)) →
      onGpu slots position = false ∧ ¬NamesExpert cfg (cpuIds topkIds slots position))

theorem hybridKernel_routable (coherent : Coherent cfg cache)
    (routable : Routable cfg cache layerId topkIds) :
    (hybridKernel cfg cache layerId topkIds).1 = (ensureExpertsHybridGpu cfg
      { cache with pendingSrcLayer := some layerId, pendingWholeLayer := false } layerId
      ((topkIds.filter (0 ≤ ·)).map Int.toNat)).1 := by
  have masks : ∀ slot, (∃ id ∈ topkIds, cache.ownerId slot = cfg.base layerId + id) ↔
      ∃ expert ∈ (topkIds.filter (0 ≤ ·)).map Int.toNat,
        cache.idOfSlot slot = some (cfg.base layerId + expert) := by
    intro slot
    unfold ownerId
    constructor
    · rintro ⟨id, mem, owner⟩
      by_cases named : 0 ≤ id
      · refine ⟨id.toNat, mem_map_of_mem (mem_filter.mpr ⟨mem, decide_eq_true named⟩), ?_⟩
        cases held : cache.idOfSlot slot with
        | none =>
          rw [held, Option.elim_none] at owner
          omega
        | some flat =>
          rw [held, Option.elim_some] at owner
          exact congrArg some (by omega)
      · obtain ⟨lt, free⟩ := (routable id mem).2 (lt_of_not_ge named)
        cases held : cache.idOfSlot slot with
        | none =>
          rw [held, Option.elim_none] at owner
          omega
        | some flat =>
          rw [held, Option.elim_some] at owner
          rw [← owner, Int.toNat_natCast] at free
          cases ((coherent.inverse flat slot).mpr held).symm.trans free
    · rintro ⟨expert, lt, held⟩
      obtain ⟨id, kept, rfl⟩ := mem_map.mp lt
      obtain ⟨mem, named⟩ := mem_filter.mp kept
      have named : 0 ≤ id := of_decide_eq_true named
      refine ⟨id, mem, ?_⟩
      rw [held, Option.elim_some]
      omega
  have lanes : (fun slot => if ∃ id ∈ topkIds, cache.ownerId slot = cfg.base layerId + id then ⊤
      else (touchHits cache.slotForId (cfg.base layerId) (cache.step + 1)
        ((topkIds.filter (0 ≤ ·)).map Int.toNat) cache.usage slot : WithTop Nat)) =
      (fetchStart cfg cache (cfg.base layerId) (cache.step + 1)
        ((topkIds.filter (0 ≤ ·)).map Int.toNat)).u := by
    funext slot
    exact ite_congr (propext (masks slot)) (fun _ => rfl) fun _ => rfl
  unfold hybridKernel ensureExpertsHybridGpu
  dsimp only
  rw [lanes]
  rfl

/-- What a route finds on the GPU: the rows and the scales of its expert. -/
structure Served (cfg : OffloadConfig Bank Bytes) (copied : OffloadMoeCache Bank Bytes)
    (layerId : Nat) (id : Int) (slot : Nat) : Prop where
  named : NamesExpert cfg id
  rows : copied.bankCaches slot = cfg.bankSources layerId id.toNat
  owner : (copied.idOfSlot slot).getD 0 % cfg.numExperts = id.toNat

/-- **The kernel and its copy serve the routes they take**, and no negative id. -/
theorem hybridKernel_served (coherent : Coherent cfg cache) (layer : layerId < cfg.numLayers)
    (routable : Routable cfg cache layerId topkIds) {copied : OffloadMoeCache Bank Bytes}
    (run : copyMissing cfg (hybridKernel cfg cache layerId topkIds).1 = .ok copied) :
    Coherent cfg copied ∧ ∀ position slot,
      (hybridKernel cfg cache layerId topkIds).2.getD position none = some slot →
      Served cfg copied layerId (topkIds.getD position (-1)) slot := by
  have same := hybridKernel_routable coherent routable
  have routed : ∀ expert ∈ (topkIds.filter (0 ≤ ·)).map Int.toNat, expert < cfg.numExperts := by
    intro expert lt
    obtain ⟨id, kept, rfl⟩ := mem_map.mp lt
    have bound := (routable id (mem_filter.mp kept).1).1
    have named : 0 ≤ id := of_decide_eq_true (mem_filter.mp kept).2
    omega
  have pending : Coherent cfg
      { cache with pendingSrcLayer := some layerId, pendingWholeLayer := false } :=
    ⟨coherent.inverse, coherent.bounds, coherent.rows, coherent.clock, coherent.size,
      coherent.overlap⟩
  have done := ensureExpertsHybridGpu_staged pending routed ⟨rfl, rfl⟩
  rw [← same] at done
  obtain ⟨kept, arrays⟩ := coherent.staged layer done.staged done.arrays done.clock done.frame
    done.pending run
  refine ⟨kept, fun position slot given => ?_⟩
  have after : (hybridKernel cfg cache layerId topkIds).2 = topkIds.map fun id =>
      slotAt copied.slotForId (cfg.base layerId + id) := by
    rw [show copied.slotForId = _ from congrArg SlotMap.slotOf arrays]
    rfl
  rw [after, getD_eq_getElem?_getD, getElem?_map] at given
  rw [getD_eq_getElem?_getD]
  cases route : topkIds[position]? with
  | none =>
    rw [route] at given
    cases given
  | some id =>
    rw [route] at given
    change slotAt copied.slotForId (cfg.base layerId + id) = some slot at given
    show Served cfg copied layerId id slot
    have mem := mem_of_getElem? route
    unfold slotAt at given
    split at given
    · cases given
    have held : copied.map.keyOf slot = some (cfg.base layerId + id).toNat :=
      (kept.inverse _ _).mp given
    have named : 0 ≤ id := by
      by_contra negative
      obtain ⟨lt, free⟩ := (routable id mem).2 (lt_of_not_ge negative)
      -- the kernel gives slots to experts of its own layer only
      have pairs := stagedPairs_snd (cfg.base layerId) done.staged.paired
      rw [arrays, done.arrays] at held
      by_cases written : slot ∈ (hybridKernel cfg cache layerId topkIds).1.evictSlots
      · obtain ⟨pair, staged, rfl⟩ := mem_map.mp (pairs.symm ▸ written)
        rw [putAll_keyOf_of_mem _ (pairs.symm ▸ done.staged.slotsDistinct) staged] at held
        have first := mem_map_of_mem (f := Prod.fst) staged
        rw [stagedPairs_fst _ done.staged.paired] at first
        obtain ⟨expert, -, isFirst⟩ := mem_map.mp first
        have flat := Option.some.inj held
        omega
      · rw [putAll_keyOf_of_notMem _ _ (pairs.symm ▸ written)] at held
        cases ((coherent.inverse _ slot).mpr held).symm.trans free
    have bound := (routable id mem).1
    have flat : (cfg.base layerId + id).toNat = cfg.base layerId + id.toNat := by omega
    have owner : copied.idOfSlot slot = some (cfg.base layerId + id.toNat) := flat ▸ held
    refine ⟨⟨named, bound⟩, ?_, ?_⟩
    · rw [kept.rows slot _ held, flat, row_base (by omega)]
    · rw [owner, Option.getD_some, OffloadConfig.base, Nat.mul_add_mod',
        Nat.mod_eq_of_lt (by omega)]

section Once

variable {R Out Hidden Alpha : Type} [Semiring R] [AddCommMonoid Out] [Module R Out]

/-- **A hybrid decode computes every route once.** In a coherent cache, whatever the cap, the rows that
the GPU sums up over slots and those that the CPU sums up make the whole weighted sum; a route that
names an expert is on exactly one side, any other on none; it fails on unpinned layers only. -/
theorem decodeHybrid_routedSum (ffn : Alpha → (Bank → Bytes) → Hidden → Out) (alphas : Nat → Alpha)
    (hidden : Nat → Hidden) (topK : Nat) (weights : Nat → R) (coherent : Coherent cfg cache)
    (layer : layerId < cfg.numLayers) (routable : Routable cfg cache layerId topkIds) :
    Outcome (decodeHybrid ffn alphas hidden topK weights cfg cache layerId topkIds)
      (fun res => Coherent cfg res.1 ∧
        (res.2 = routedSum ffn alphas hidden topK weights cfg layerId fun position =>
          topkIds.getD position (-1)) ∧
        ∀ position, OnOneSide cfg topkIds (hybridKernel cfg cache layerId topkIds).2 position)
      fun _ => cfg.unpinnedLayers layerId = true := by
  unfold decodeHybrid
  dsimp only
  cases run : copyMissing cfg (hybridKernel cfg cache layerId topkIds).1 with
  | error err =>
    unfold copyMissing hybridKernel at run
    dsimp only at run
    split at run
    · assumption
    · cases run
  | ok copied =>
    obtain ⟨kept, served⟩ := hybridKernel_served coherent layer routable run
    have skipped : ¬NamesExpert cfg (-1) := fun named => absurd named.1 (by decide)
    refine ⟨kept, funext fun token => ?_, fun position => ?_⟩
    · unfold expertGemm routedSum
      dsimp only
      rw [← Finset.sum_add_distrib]
      refine Finset.sum_congr rfl fun k _ => ?_
      generalize token * topK + k = position
      unfold cpuIds onGpu alphasForSlots
      cases given : (hybridKernel cfg cache layerId topkIds).2.getD position none with
      | none =>
        rw [Option.isSome_none, if_neg Bool.false_ne_true, zero_smul, zero_add,
          if_neg Bool.false_ne_true]
      | some slot =>
        obtain ⟨named, rows, owner⟩ := served position slot given
        rw [Option.isSome_some, if_pos rfl, if_pos rfl, Option.getD_some, rows, owner, if_pos named,
          if_neg skipped, add_zero]
    · unfold OnOneSide cpuIds onGpu
      cases given : (hybridKernel cfg cache layerId topkIds).2.getD position none with
      | none =>
        rw [Option.isSome_none, if_neg Bool.false_ne_true]
        exact ⟨fun named => .inr ⟨named, Bool.false_ne_true⟩, fun unnamed => ⟨rfl, unnamed⟩⟩
      | some slot =>
        rw [Option.isSome_some, if_pos rfl]
        exact ⟨fun _ => .inl ⟨rfl, skipped⟩,
          fun unnamed => absurd (served position slot given).named unnamed⟩

end Once

def oneFetch : OffloadConfig Unit Nat := { smallConfig with hybridMaxFetch := 1, isCuda := true }

def rowValue (_ : Unit) (rows : Unit → Nat) (_ : Unit) : Nat := rows ()

/-- The second layer has one of two experts fetched; the other one is asked for twice, and `-1` is an
expert of the first layer that has no slot. -/
theorem decodeHybrid_routedSum_capped : ∃ cache, init oneFetch (fun _ => 9) 2 false = .ok cache ∧
    Outcome (decodeHybrid rowValue (fun _ => ()) (fun _ => ()) 4 (· + 1) oneFetch cache 1 [1, 0, -1, 1])
      (fun res => Coherent oneFetch res.1 ∧
        (res.2 = routedSum rowValue (fun _ => ()) (fun _ => ()) 4 (· + 1) oneFetch 1 fun position =>
          [1, 0, -1, 1].getD position (-1)) ∧
        ∀ position, OnOneSide oneFetch [1, 0, -1, 1]
          (hybridKernel oneFetch cache 1 [1, 0, -1, 1]).2 position)
      fun _ => oneFetch.unpinnedLayers 1 = true := by
  refine ⟨_, rfl, decodeHybrid_routedSum _ _ _ 4 _ (@coherent_init _ _ oneFetch _ (fun _ => 9) 2
    false rfl) (by decide : 1 < oneFetch.numLayers) ?_⟩
  unfold Routable
  decide

/-- **A negative id is an expert of the layer before.** After a step of the first layer for its second
expert, the route `-1` of the second layer is computed on the GPU. -/
theorem decodeHybrid_negative : ∃ cache copied out, Coherent oneFetch cache ∧
    decodeHybrid rowValue (fun _ => ()) (fun _ => ()) 1 (fun _ => 1) oneFetch cache 1 [-1] =
      .ok (copied, out) ∧
    out 0 ≠ routedSum rowValue (fun _ => ()) (fun _ => ()) 1 (fun _ => 1) oneFetch 1
      (fun position => [-1].getD position (-1)) 0 := by
  have start := @coherent_init _ _ oneFetch _ (fun _ => 9) 2 false rfl
  have served := @Coherent.ensureExpertsHybrid _ _ oneFetch _ start 0 (by decide) [1] (by decide) _ rfl
  exact ⟨_, _, _, served.1, rfl, by decide⟩

end OffloadMoeCache

end FreeToken
